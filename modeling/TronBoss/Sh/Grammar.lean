import TronBoss.Sh.Parser

/-!
# The grammar of the shell

The sentences of the shell with the command each stands for, as relations over tokens that know
nothing of the parser. What the parsing routines return stands for the tokens they have taken.
-/

namespace TronBoss.Sh

open Lib Fs

/-- A redirection: the file, how to open it, and the descriptor it replaces. -/
structure Redir where
  file : List Char
  mode : UInt32
  fd : Nat

/-- Redirections around a command, the first one innermost. -/
def wrap (rs : List Redir) (cmd : Cmd (List Char)) : Cmd (List Char) :=
  rs.foldl (fun cmd r => .redir cmd r.file r.mode r.fd) cmd

/-- `'<' | '>' | '>>'`, with the mode and the descriptor. -/
def Tok.redirects : Tok → Option (UInt32 × Nat)
  | .sym '<' => some (O_RDONLY, 0)
  | .sym '>' => some (O_WRONLY ||| O_CREATE, 1)
  | .append => some (O_WRONLY ||| O_CREATE, 1)
  | _ => none

/-- `redir*`, where `redir ::= ('<' | '>' | '>>') word`. -/
inductive Redirs : List Tok → List Redir → Prop where
  | nil : Redirs [] []
  | cons {t : Tok} {w : List Char} {mode : UInt32} {fd : Nat} {ts : List Tok} {rs : List Redir}
    (ht : t.redirects = some (mode, fd)) (h : Redirs ts rs) :
    Redirs (t :: .word w :: ts) (⟨w, mode, fd⟩ :: rs)

/-- `(word redir*)*`. -/
inductive Args : List Tok → List (List Char) → List Redir → Prop where
  | nil : Args [] [] []
  | word {w : List Char} {ts us : List Tok} {ws : List (List Char)} {rs rs' : List Redir}
    (hr : Redirs ts rs) (h : Args us ws rs') : Args (.word w :: ts ++ us) (w :: ws) (rs ++ rs')

/-- The command with these words, and with the null pointer behind them. -/
def Cmd.ofWords {α : Type} (ws : List α) : Cmd α := .exec ws (some ws.length)

mutual

/-- `line ::= pipe '&'* [';' line]`. -/
inductive Line : List Tok → Cmd (List Char) → Prop where
  | last {ts : List Tok} {cmd : Cmd (List Char)} {n : Nat} (h : Pipe ts cmd) :
    Line (ts ++ List.replicate n (.sym '&')) (Cmd.back^[n] cmd)
  | semi {ts us : List Tok} {left right : Cmd (List Char)} {n : Nat} (hl : Pipe ts left)
    (hr : Line us right) :
    Line (ts ++ List.replicate n (.sym '&') ++ .sym ';' :: us) (.list (Cmd.back^[n] left) right)

/-- `pipe ::= exec ['|' pipe]`. -/
inductive Pipe : List Tok → Cmd (List Char) → Prop where
  | last {ts : List Tok} {cmd : Cmd (List Char)} (h : Exec ts cmd) : Pipe ts cmd
  | bar {ts us : List Tok} {left right : Cmd (List Char)} (hl : Exec ts left)
    (hr : Pipe us right) : Pipe (ts ++ .sym '|' :: us) (.pipe left right)

/-- `exec ::= '(' line ')' redir* | redir* (word redir*)*`. -/
inductive Exec : List Tok → Cmd (List Char) → Prop where
  | block {ts us : List Tok} {cmd : Cmd (List Char)} {rs : List Redir} (h : Line ts cmd)
    (hr : Redirs us rs) : Exec (.sym '(' :: ts ++ .sym ')' :: us) (wrap rs cmd)
  | simple {ts us : List Tok} {ws : List (List Char)} {rs rs' : List Redir} (hr : Redirs ts rs)
    (ha : Args us ws rs') (hw : ws.length ≤ MAXARGS - 1) :
    Exec (ts ++ us) (wrap (rs ++ rs') (.ofWords ws))

end

/-! ## Words of a command -/

section
variable {α β : Type} {f g : α → β} {P : α → Prop} {w : α} {cmd : Cmd α}

theorem Cmd.map_addArg (cmd : Cmd α) : (cmd.addArg w).map f = (cmd.map f).addArg (f w) := by
  induction cmd with
  | exec argv null => simp [addArg, map]
  | redir cmd file mode fd ih => simp [addArg, map, ih]
  | pipe left right | list left right | back cmd => rfl

theorem Cmd.All.addArg (h : cmd.All P) (hw : P w) : (cmd.addArg w).All P := by
  induction cmd with
  | exec argv null =>
    intro v hv
    rcases List.mem_append.1 hv with hv | hv
    · exact h v hv
    · exact List.mem_singleton.1 hv ▸ hw
  | redir cmd file mode fd ih => exact ⟨ih h.1, h.2⟩
  | pipe left right | list left right | back cmd => exact h

theorem Cmd.map_endArgs (cmd : Cmd α) (n : Nat) : (cmd.endArgs n).map f = (cmd.map f).endArgs n := by
  induction cmd with
  | redir cmd file mode fd ih => rw [endArgs, map, map, endArgs, ih]
  | exec argv null | pipe left right | list left right | back cmd => rfl

theorem Cmd.All.endArgs (h : cmd.All P) (n : Nat) : (cmd.endArgs n).All P := by
  induction cmd with
  | redir cmd file mode fd ih => exact ⟨ih h.1, h.2⟩
  | exec argv null | pipe left right | list left right | back cmd => exact h

theorem Cmd.map_congr (h : cmd.All fun w => f w = g w) : cmd.map f = cmd.map g := by
  induction cmd with
  | exec argv null => rw [map, map, List.map_congr_left h]
  | redir cmd file mode fd ih =>
    rw [map, map, ih h.1, h.2]
  | pipe left right ihl ihr | list left right ihl ihr => rw [map, map, ihl h.1, ihr h.2]
  | back cmd ih => rw [map, map, ih h]

theorem Cmd.All.and {Q : α → Prop} (h : cmd.All P) (h' : cmd.All Q) :
    cmd.All fun w => P w ∧ Q w := by
  induction cmd with
  | exec argv null => exact fun w hw => ⟨h w hw, h' w hw⟩
  | redir cmd file mode fd ih => exact ⟨ih h.1 h'.1, h.2, h'.2⟩
  | pipe left right ihl ihr | list left right ihl ihr => exact ⟨ihl h.1 h'.1, ihr h.2 h'.2⟩
  | back cmd ih => exact ih h h'

theorem Cmd.All.imp {Q : α → Prop} (h : cmd.All P) (hi : ∀ w, P w → Q w) : cmd.All Q := by
  induction cmd with
  | exec argv null => exact fun w hw => hi w (h w hw)
  | redir cmd file mode fd ih => exact ⟨ih h.1, hi _ h.2⟩
  | pipe left right ihl ihr | list left right ihl ihr => exact ⟨ihl h.1, ihr h.2⟩
  | back cmd ih => exact ih h

end

theorem wrap_append (rs rs' : List Redir) (cmd : Cmd (List Char)) :
    wrap (rs ++ rs') cmd = wrap rs' (wrap rs cmd) := List.foldl_append

theorem wrap_endArgs (rs : List Redir) (cmd : Cmd (List Char)) (n : Nat) :
    (wrap rs cmd).endArgs n = wrap rs (cmd.endArgs n) := by
  induction rs generalizing cmd with
  | nil => rfl
  | cons r rs ih => exact ih _

theorem wrap_addArg (rs : List Redir) (cmd : Cmd (List Char)) (w : List Char) :
    (wrap rs cmd).addArg w = wrap rs (cmd.addArg w) := by
  induction rs generalizing cmd with
  | nil => rfl
  | cons r rs ih => exact ih _

/-! ## Soundness -/

/-- The routine returned a command that stands for the tokens it has taken, in the sense of `P`. -/
def Taken (str : List Char) (ts : List Tok) (P : List Tok → Cmd (List Char) → Prop)
    (cmd : Cmd Span) (c : Cursor) : Prop :=
  ∃ us vs, ts = us ++ vs ∧ c.At str vs ∧ P us (cmd.map (slice str)) ∧ cmd.All (WordAt str)

/-- The program ended in a `panic`. -/
def Panics (e : Stop) : Prop := ∃ msg, e = .panic msg

section
variable {str : List Char} {ts us : List Tok} {c : Cursor} {n : Nat} {cmd : Cmd Span}
  {P P' : List Tok → Cmd (List Char) → Prop}

theorem Taken.prepend (h : Taken str ts P cmd c) (us : List Tok) (hP : ∀ vs t, P vs t → P' (us ++ vs) t) :
    Taken str (us ++ ts) P' cmd c := by
  obtain ⟨vs, vs', rfl, hc, hP', hall⟩ := h
  exact ⟨us ++ vs, vs', (List.append_assoc ..).symm, hc, hP vs _ hP', hall⟩

theorem Tok.isSome_redirects (t : Tok) : t.redirects.isSome = t.startsIn ['<', '>'] := by
  rw [redirects.eq_def]
  split
  · rfl
  · rfl
  · rfl
  · rename_i hlt hgt happ
    cases t with
    | word w => rfl
    | append => exact (happ rfl).elim
    | sym x =>
      have hlt' : x ≠ '<' := fun h => hlt (congrArg Tok.sym h)
      have hgt' : x ≠ '>' := fun h => hgt (congrArg Tok.sym h)
      simp [startsIn, hlt', hgt']

/-- The `switch` of `parseredirs` does what the symbol asks for. -/
theorem Reads.redirect {tok : Kind} {w file : Span} {t : Tok} {mode : UInt32} {fd : Nat}
    {ts us : List Tok} (h : Reads str tok w (t :: ts) us) (ht : t.redirects = some (mode, fd)) :
    redirect tok cmd file = .redir cmd file mode fd := by
  rw [Tok.redirects.eq_def] at ht
  split at ht
  · cases h
    cases ht
    rfl
  · cases h
    cases ht
    rfl
  · cases h
    cases ht
    rfl
  · cases ht

/-- What `parseredirs` takes is a list of redirections, which it puts around the command. -/
theorem parseredirs_sound (hc : c.At str ts) (hn : ts.length < n) (hcmd : cmd.All (WordAt str)) :
    Sat Panics (parseredirs n cmd) c
      (Taken str ts fun us t => ∃ rs, Redirs us rs ∧ t = wrap rs (cmd.map (slice str))) := by
  induction n generalizing ts c cmd with
  | zero => omega
  | succ n ih =>
    rw [parseredirs]
    refine sat_peek_bind hc rfl fun c1 h1 => Sat.ite (fun hb => ?_) fun hb => ?_
    · obtain ⟨t, ht, hstart⟩ := (Option.any_eq_true ..).1 hb
      obtain ⟨ts, rfl⟩ := List.head?_eq_some_iff.1 ht
      rw [← t.isSome_redirects, Option.isSome_iff_exists] at hstart
      obtain ⟨⟨mode, fd⟩, hmode⟩ := hstart
      refine sat_gettoken_bind h1 fun tok w us c2 h2 hreads => ?_
      refine sat_gettoken_bind h2 fun ret file vs c3 h3 hfile => ?_
      rw [sat_panicIf_bind]
      refine ⟨fun _ => ⟨_, rfl⟩, fun hword => ?_⟩
      rw [hreads.redirect hmode]
      obtain rfl := hreads.tail
      obtain ⟨hw, rfl⟩ := hfile.of_word (Decidable.not_not.1 hword)
      have hlen : vs.length < n := by
        simp only [List.length_cons] at hn
        omega
      have hall : (Cmd.redir cmd file mode fd).All (WordAt str) := ⟨hcmd, hw⟩
      refine (ih h3 hlen hall).weaken fun r c' hr => hr.prepend [t, .word (slice str file)] ?_
      rintro us _ ⟨rs, hrs, rfl⟩
      exact ⟨_, .cons hmode hrs, rfl⟩
    · exact ⟨[], ts, rfl, h1, ⟨[], .nil, rfl⟩, hcmd⟩

/-- The loop of `parseexec`, after the words `ws`. -/
theorem argLoop_sound {ws : List (List Char)} {rs : List Redir} (hc : c.At str ts)
    (hn : ts.length < n) (hws : ws.length ≤ MAXARGS - 1) (hcmd : cmd.All (WordAt str))
    (hmap : cmd.map (slice str) = wrap rs (.exec ws none)) :
    Sat Panics (argLoop n ws.length cmd) c
      (Taken str ts fun us t => ∃ ws' rs', Args us ws' rs' ∧ (ws ++ ws').length ≤ MAXARGS - 1 ∧
        t = wrap (rs ++ rs') (.ofWords (ws ++ ws'))) := by
  induction n generalizing ts c cmd ws rs with
  | zero => omega
  | succ n ih =>
    have hdone : ∀ {c'}, c'.At str ts → Taken str ts (fun us t => ∃ ws' rs', Args us ws' rs' ∧
        (ws ++ ws').length ≤ MAXARGS - 1 ∧ t = wrap (rs ++ rs') (.ofWords (ws ++ ws')))
        (cmd.endArgs ws.length) c' := by
      intro c' hc'
      refine ⟨[], ts, rfl, hc', ⟨[], [], .nil, ?_, ?_⟩, hcmd.endArgs _⟩
      · rwa [List.append_nil]
      · rw [List.append_nil, List.append_nil, cmd.map_endArgs, hmap, wrap_endArgs]
        rfl
    rw [argLoop]
    refine sat_peek_bind hc rfl fun c1 h1 => Sat.ite (fun _ => hdone h1) fun hstop => ?_
    refine sat_gettoken_bind h1 fun tok w us c2 h2 hreads => Sat.ite (fun heof => ?_) fun heof => ?_
    · obtain ⟨rfl, rfl⟩ := hreads.of_eof heof
      exact hdone h2
    · rw [sat_panicIf_bind, sat_panicIf_bind]
      refine ⟨fun _ => ⟨_, rfl⟩, fun hword => ⟨fun _ => ⟨_, rfl⟩, fun hargs => ?_⟩⟩
      obtain ⟨hw, rfl⟩ := hreads.of_word (Decidable.not_not.1 hword)
      rw [List.length_cons] at hn
      refine (parseredirs_sound h2 (by omega) (hcmd.addArg hw)).bind fun cmd' c3 h3 => ?_
      obtain ⟨ts1, ts2, rfl, h3, ⟨rs1, hrs1, hmap'⟩, hall⟩ := h3
      rw [List.length_append] at hn
      rw [cmd.map_addArg, hmap, wrap_addArg, ← wrap_append] at hmap'
      have hlen : (ws ++ [slice str w]).length = ws.length + 1 := by simp
      rw [← hlen] at hargs ⊢
      refine (ih h3 (by omega) (by omega) hall hmap').weaken fun r c' hr => ?_
      rw [← List.cons_append]
      refine hr.prepend (.word (slice str w) :: ts1) ?_
      rintro us _ ⟨ws', rs', hargs', hle, rfl⟩
      refine ⟨slice str w :: ws', rs1 ++ rs', .word hrs1 hargs', ?_, ?_⟩
      · simpa using hle
      · simp

/-- What the loop over `&` takes is a row of `&`. -/
theorem ampLoop_sound (hc : c.At str ts) (hn : ts.length < n) (hcmd : cmd.All (WordAt str)) :
    Sat Panics (ampLoop n cmd) c (Taken str ts fun us t => ∃ k,
      us = List.replicate k (.sym '&') ∧ t = Cmd.back^[k] (cmd.map (slice str))) := by
  induction n generalizing ts c cmd with
  | zero => omega
  | succ n ih =>
    rw [ampLoop]
    refine sat_optional hc rfl (by decide) ?_ ?_
    · rintro us r c' rfl hc'
      rw [List.length_cons] at hn
      have hall : (Cmd.back cmd).All (WordAt str) := hcmd
      refine (ih hc' (by omega) hall).weaken fun r c' hr => hr.prepend [.sym '&'] ?_
      rintro us _ ⟨k, rfl, rfl⟩
      exact ⟨k + 1, rfl, rfl⟩
    · intro _ c' hc'
      exact ⟨[], ts, rfl, hc', ⟨0, rfl, rfl⟩, hcmd⟩

/-- What the routines that call each other return, with fuel `n`. -/
structure Sound (str : List Char) (n : Nat) : Prop where
  line : ∀ {ts c}, c.At str ts → 4 * ts.length + 4 ≤ n →
    Sat Panics (parseline n) c (Taken str ts Line)
  pipe : ∀ {ts c}, c.At str ts → 4 * ts.length + 3 ≤ n →
    Sat Panics (parsepipe n) c (Taken str ts Pipe)
  exec : ∀ {ts c}, c.At str ts → 4 * ts.length + 2 ≤ n →
    Sat Panics (parseexec n) c (Taken str ts Exec)
  block : ∀ {ts c}, c.At str ts → 4 * ts.length + 1 ≤ n →
    Sat Panics (parseblock n) c (Taken str ts Exec)

/-- What `parseline` takes is a line of the grammar. -/
theorem Sound.parseline (h : Sound str n) (hc : c.At str ts) (hn : 4 * ts.length + 4 ≤ n + 1) :
    Sat Panics (parseline (n + 1)) c (Taken str ts Line) := by
  rw [Sh.parseline]
  refine (h.pipe hc (by omega)).bind fun cmd c1 h1 => ?_
  obtain ⟨us, vs, rfl, h1, hpipe, hall⟩ := h1
  rw [List.length_append] at hn
  refine (ampLoop_sound h1 (by omega) hall).bind fun cmd1 c2 h2 => ?_
  obtain ⟨amps, vs, rfl, h2, ⟨k, rfl, hback⟩, hall1⟩ := h2
  refine sat_optional h2 rfl (by decide) ?_ ?_
  · rintro vs r c' rfl hc'
    rw [List.length_append, List.length_cons] at hn
    refine (h.line hc' (by omega)).bind fun right c3 h3 => ?_
    obtain ⟨ws, vs, rfl, h3, hline, hall2⟩ := h3
    refine ⟨us ++ List.replicate k (.sym '&') ++ .sym ';' :: ws, vs, by simp, h3, ?_, hall1, hall2⟩
    rw [Cmd.map, hback]
    exact .semi hpipe hline
  · intro _ c' hc'
    refine ⟨us ++ List.replicate k (.sym '&'), vs, by simp, hc', ?_, hall1⟩
    rw [hback]
    exact .last hpipe

/-- What `parsepipe` takes is a pipe of the grammar. -/
theorem Sound.parsepipe (h : Sound str n) (hc : c.At str ts) (hn : 4 * ts.length + 3 ≤ n + 1) :
    Sat Panics (parsepipe (n + 1)) c (Taken str ts Pipe) := by
  rw [Sh.parsepipe]
  refine (h.exec hc (by omega)).bind fun cmd c1 h1 => ?_
  obtain ⟨us, vs, rfl, h1, hexec, hall⟩ := h1
  refine sat_optional h1 rfl (by decide) ?_ ?_
  · rintro vs r c' rfl hc'
    rw [List.length_append, List.length_cons] at hn
    refine (h.pipe hc' (by omega)).bind fun right c2 h2 => ?_
    obtain ⟨ws, vs, rfl, h2, hpipe, hall2⟩ := h2
    exact ⟨us ++ .sym '|' :: ws, vs, by simp, h2, .bar hexec hpipe, hall, hall2⟩
  · intro _ c' hc'
    exact ⟨us, vs, rfl, hc', .last hexec, hall⟩

/-- What `parseexec` takes is a command of the grammar. -/
theorem Sound.parseexec (h : Sound str n) (hc : c.At str ts) (hn : 4 * ts.length + 2 ≤ n + 1) :
    Sat Panics (parseexec (n + 1)) c (Taken str ts Exec) := by
  rw [Sh.parseexec]
  refine sat_peek_bind hc rfl fun c1 h1 => Sat.ite (fun _ => h.block h1 (by omega)) fun _ => ?_
  have hnil : (Cmd.exec [] none).All (WordAt str) := fun _ hw => nomatch hw
  refine (parseredirs_sound h1 (by omega) hnil).bind fun cmd c2 h2 => ?_
  obtain ⟨us, vs, rfl, h2, ⟨rs, hrs, hmap⟩, hall⟩ := h2
  rw [List.length_append] at hn
  refine (argLoop_sound h2 (by omega) (Nat.zero_le _) hall hmap).weaken fun r c' hr => ?_
  refine hr.prepend us ?_
  rintro vs _ ⟨ws, rs', hargs, hle, rfl⟩
  exact .simple hrs hargs hle

/-- What `parseblock` takes is a block of the grammar. -/
theorem Sound.parseblock (h : Sound str n) (hc : c.At str ts) (hn : 4 * ts.length + 1 ≤ n + 1) :
    Sat Panics (parseblock (n + 1)) c (Taken str ts Exec) := by
  rw [Sh.parseblock]
  refine sat_peek_bind hc rfl fun c1 h1 => ?_
  rw [sat_panicIf_bind]
  refine ⟨fun _ => ⟨_, rfl⟩, fun hopen => ?_⟩
  obtain ⟨us, rfl⟩ := (any_startsIn (by decide)).1 (eq_true_of_ne_false hopen)
  refine sat_gettoken_sym h1 fun _ c2 h2 => ?_
  rw [List.length_cons] at hn
  refine (h.line h2 (by omega)).bind fun cmd c3 h3 => ?_
  obtain ⟨us, vs, rfl, h3, hline, hall⟩ := h3
  refine sat_peek_bind h3 rfl fun c4 h4 => ?_
  rw [sat_panicIf_bind]
  refine ⟨fun _ => ⟨_, rfl⟩, fun hclose => ?_⟩
  obtain ⟨vs, rfl⟩ := (any_startsIn (by decide)).1 (eq_true_of_ne_false hclose)
  refine sat_gettoken_sym h4 fun _ c5 h5 => ?_
  rw [List.length_append, List.length_cons] at hn
  refine (parseredirs_sound h5 (by omega) hall).weaken fun r c' hr => ?_
  obtain ⟨ws, vs, rfl, hc', ⟨rs, hrs, hmap⟩, hall'⟩ := hr
  refine ⟨.sym '(' :: us ++ .sym ')' :: ws, vs, by simp, hc', ?_, hall'⟩
  rw [hmap]
  exact .block hline hrs

/-- With enough fuel for the tokens left, the routines return what stands for the tokens they have
taken, or the program panics. -/
theorem sound (str : List Char) (n : Nat) : Sound str n := by
  induction n with
  | zero => constructor <;> exact fun _ hn => absurd hn (by omega)
  | succ n ih => exact ⟨ih.parseline, ih.parsepipe, ih.parseexec, ih.parseblock⟩

end

end TronBoss.Sh
