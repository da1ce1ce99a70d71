import TronBoss.Sh.Grammar

/-!
# The parser accepts the grammar

The other direction: what stands for a command is read as that command, provided that the tokens
after it cannot go on with it. With what `nulterminate` does to the line this gives what `parsecmd`
returns: the strings of the command are the words of the sentence.
-/

namespace TronBoss.Sh

open Lib List Fs

/-! ## Completeness -/

/-- The routine returned a command that reads `t`, and left the tokens `vs`. -/
def Left (str : List Char) (vs : List Tok) (t : Cmd (List Char)) (cmd : Cmd Span) (c : Cursor) :
    Prop :=
  c.At str vs ∧ cmd.map (slice str) = t

section
variable {str : List Char} {us vs : List Tok} {c : Cursor} {n : Nat} {cmd : Cmd Span}
  {rs rs' : List Redir} {ws ws' : List (List Char)} {toks : List Char}

/-- Tokens that start with one of some symbols do not start with one of others. -/
theorem Follow.any_eq_false (h : Follow toks vs) (toks' : List Char)
    (hd : toks.all (fun x => !toks'.contains x) = true) :
    vs.head?.any (Tok.startsIn toks') = false := by
  cases vs with
  | nil => rfl
  | cons t vs =>
    have hin := h t rfl
    cases t with
    | word w => rfl
    | sym x =>
      have hx := all_eq_true.1 hd x (contains_iff_mem.1 hin)
      simpa [Tok.startsIn] using hx
    | append =>
      have hx := all_eq_true.1 hd '>' (contains_iff_mem.1 hin)
      simpa [Tok.startsIn] using hx

theorem Args.any_eq_false (h : Args us ws rs) (hv : vs.head?.any (Tok.startsIn toks) = false) :
    (us ++ vs).head?.any (Tok.startsIn toks) = false := by
  cases h with
  | nil => exact hv
  | word hr h => rfl

theorem Redirs.any_eq_false (h : Redirs us rs) (hv : vs.head?.any (Tok.startsIn ['(']) = false) :
    (us ++ vs).head?.any (Tok.startsIn ['(']) = false := by
  cases h with
  | nil => exact hv
  | cons ht h =>
    refine Bool.eq_false_iff.2 fun hany => ?_
    obtain ⟨_, ⟨⟩⟩ := (any_startsIn (by decide)).1 hany
    cases ht

/-- `parseredirs` reads all redirections that come next. -/
theorem parseredirs_complete (h : Redirs us rs) (hc : c.At str (us ++ vs))
    (hn : (us ++ vs).length < n) (hv : vs.head?.any (Tok.startsIn ['<', '>']) = false) :
    Sat (fun _ => False) (parseredirs n cmd) c (Left str vs (wrap rs (cmd.map (slice str)))) := by
  induction h generalizing n c cmd with
  | nil =>
    cases n with
    | zero => omega
    | succ n =>
      rw [parseredirs]
      refine sat_peek_bind hc rfl fun c1 h1 => ?_
      rw [nil_append] at h1 ⊢
      rw [hv]
      exact ⟨h1, rfl⟩
  | @cons t w mode fd ts rs ht h ih =>
    cases n with
    | zero => omega
    | succ n =>
      have hstart : t.startsIn ['<', '>'] = true := by
        rw [← t.isSome_redirects, ht]
        rfl
      rw [parseredirs]
      refine sat_peek_bind hc rfl fun c1 h1 => Sat.ite (fun _ => ?_) fun hno => (hno hstart).elim
      refine sat_gettoken_bind h1 fun tok _ us' c2 h2 hreads => ?_
      obtain rfl := hreads.tail
      refine sat_gettoken_word h2 fun file c3 h3 hfile => ?_
      subst hfile
      rw [sat_panicIf_bind, hreads.redirect ht]
      refine ⟨fun hne => hne rfl, fun _ => ih h3 ?_⟩
      simp only [cons_append, length_cons] at hn
      omega

/-- The loop of `parseexec` reads the words and redirections up to a token that ends the command. -/
theorem argLoop_complete (h : Args us ws' rs') (hc : c.At str (us ++ vs))
    (hn : (us ++ vs).length < n) (hws : (ws ++ ws').length ≤ MAXARGS - 1)
    (hv : Follow ['|', ')', '&', ';'] vs) (hmap : cmd.map (slice str) = wrap rs (.exec ws none)) :
    Sat (fun _ => False) (argLoop n ws.length cmd) c
      (Left str vs (wrap (rs ++ rs') (.ofWords (ws ++ ws')))) := by
  induction h generalizing n c cmd ws rs with
  | nil =>
    cases n with
    | zero => omega
    | succ n =>
      rw [argLoop, append_nil, append_nil]
      have hend : (cmd.endArgs ws.length).map (slice str) = wrap rs (.ofWords ws) := by
        rw [cmd.map_endArgs, hmap, wrap_endArgs]
        rfl
      refine sat_peek_bind hc rfl fun c1 h1 => Sat.ite (fun _ => ⟨h1, hend⟩) fun hno => ?_
      refine sat_gettoken_bind h1 fun tok w us' c2 h2 hreads => ?_
      cases vs with
      | nil =>
        cases hreads
        exact ⟨h2, hend⟩
      | cons t vs => exact (hno (hv t rfl)).elim
  | @word w ts us ws' rs1 rs' hr h ih =>
    cases n with
    | zero => omega
    | succ n =>
      rw [argLoop]
      refine sat_peek_bind hc rfl fun c1 h1 => Sat.ite (by rintro ⟨⟩) fun _ => ?_
      refine sat_gettoken_word h1 fun file c2 h2 hfile => Sat.ite (by rintro ⟨⟩) fun _ => ?_
      subst hfile
      simp only [length_append, length_cons] at hws hn
      rw [sat_panicIf_bind, sat_panicIf_bind]
      refine ⟨fun hne => hne rfl, fun _ => ⟨fun hge => by omega, fun _ => ?_⟩⟩
      have hnext : (us ++ vs).head?.any (Tok.startsIn ['<', '>']) = false :=
        h.any_eq_false (hv.any_eq_false _ rfl)
      change c2.At str (ts ++ us ++ vs) at h2
      rw [append_assoc] at h2
      refine (parseredirs_complete hr h2 ?_ hnext).bind fun cmd' c3 h3 => ?_
      · simp only [length_append]
        omega
      obtain ⟨h3, hmap'⟩ := h3
      rw [cmd.map_addArg, hmap, wrap_addArg, ← wrap_append] at hmap'
      have hlen : (ws ++ [slice str file]).length = ws.length + 1 := by simp
      rw [← hlen]
      refine (ih h3 ?_ ?_ hmap').weaken fun r c' hr => ?_
      · simp only [length_append]
        omega
      · simp only [length_append, length_singleton]
        omega
      · simpa using hr

/-- The loop over `&` wraps the command once for each. -/
theorem ampLoop_complete (k : Nat) (hc : c.At str (List.replicate k (.sym '&') ++ vs))
    (hn : (List.replicate k (Tok.sym '&') ++ vs).length < n) (hv : ∀ us, vs ≠ .sym '&' :: us) :
    Sat (fun _ => False) (ampLoop n cmd) c
      (Left str vs (Cmd.back^[k] (cmd.map (slice str)))) := by
  induction k generalizing n c cmd with
  | zero =>
    cases n with
    | zero => omega
    | succ n =>
      rw [ampLoop]
      refine sat_optional hc rfl (by decide) (fun us _ _ hus => (hv us hus).elim) ?_
      exact fun _ c' hc' => ⟨hc', rfl⟩
  | succ k ih =>
    cases n with
    | zero => omega
    | succ n =>
      rw [ampLoop]
      refine sat_optional hc rfl (by decide) ?_ fun hno => (hno _ rfl).elim
      rintro us _ c' ⟨⟩ hc'
      refine ih hc' ?_
      simp only [replicate_succ, cons_append, length_cons] at hn
      omega

/-- What the routines that call each other accept, with fuel `n`. -/
structure Complete (str : List Char) (n : Nat) : Prop where
  line : ∀ {us vs t c}, Line us t → Follow [')'] vs → c.At str (us ++ vs) →
    4 * (us ++ vs).length + 4 ≤ n → Sat (fun _ => False) (parseline n) c (Left str vs t)
  pipe : ∀ {us vs t c}, Pipe us t → Follow [')', '&', ';'] vs → c.At str (us ++ vs) →
    4 * (us ++ vs).length + 3 ≤ n → Sat (fun _ => False) (parsepipe n) c (Left str vs t)
  exec : ∀ {us vs t c}, Exec us t → Follow ['|', ')', '&', ';'] vs → c.At str (us ++ vs) →
    4 * (us ++ vs).length + 2 ≤ n → Sat (fun _ => False) (parseexec n) c (Left str vs t)
  block : ∀ {us ws vs t rs c}, Line us t → Redirs ws rs → Follow ['|', ')', '&', ';'] vs →
    c.At str (.sym '(' :: (us ++ .sym ')' :: (ws ++ vs))) →
    4 * (us.length + ws.length + vs.length + 2) + 1 ≤ n →
    Sat (fun _ => False) (parseblock n) c (Left str vs (wrap rs t))

variable {t : Cmd (List Char)}

section
variable (h : Complete str n)
include h

/-- A pipeline and its `&`s, as `parseline` reads them first. -/
theorem Complete.background {β : Type} {f : Cmd Span → ShM β} {Q : β → Cursor → Prop} {k : Nat}
    (hp : Pipe us t)
    (hv : Follow [')', ';'] vs) (hc : c.At str (us ++ (List.replicate k (.sym '&') ++ vs)))
    (hn : 4 * (us.length + k + vs.length) + 3 ≤ n)
    (hf : ∀ cmd c', Left str vs (Cmd.back^[k] t) cmd c' → Sat (fun _ => False) (f cmd) c' Q) :
    Sat (fun _ => False) (parsepipe n >>= fun cmd => ampLoop n cmd >>= f) c Q := by
  have hfollow : Follow [')', '&', ';'] (List.replicate k (.sym '&') ++ vs) := by
    cases k with
    | zero => exact hv.mono (by simp)
    | succ k => exact follow_sym (by simp)
  refine (h.pipe hp hfollow hc ?_).bind fun cmd c1 h1 => ?_
  · simp only [length_append, length_replicate]
    omega
  obtain ⟨h1, rfl⟩ := h1
  refine (ampLoop_complete k h1 ?_ fun us => hv.ne_sym (by simp)).bind hf
  simp only [length_append, length_replicate]
  omega

/-- `parseline` reads any line of the grammar. -/
theorem Complete.parseline (hl : Line us t) (hv : Follow [')'] vs)
    (hc : c.At str (us ++ vs)) (hn : 4 * (us ++ vs).length + 4 ≤ n + 1) :
    Sat (fun _ => False) (parseline (n + 1)) c (Left str vs t) := by
  rw [Sh.parseline]
  cases hl with
  | @last ts cmd k hp =>
    rw [append_assoc] at hc hn
    simp only [length_append, length_replicate] at hn
    refine h.background hp (hv.mono (by simp)) hc (by omega) fun cmd c1 h1 => ?_
    refine sat_optional h1.1 rfl (by decide) (fun us _ _ hus => (hv.ne_sym (by simp) hus).elim) ?_
    exact fun _ c' hc' => ⟨hc', h1.2⟩
  | @semi ts us left right k hp hr =>
    rw [append_assoc, append_assoc] at hc hn
    simp only [length_append, length_replicate, length_cons, cons_append]
      at hn hc
    refine h.background hp (follow_sym (by simp)) hc ?_ fun cmd c1 h1 => ?_
    · simp only [length_append, length_cons]
      omega
    refine sat_optional h1.1 rfl (by decide) ?_ fun hno => (hno _ rfl).elim
    rintro us' _ c' ⟨⟩ hc'
    refine (h.line hr hv hc' ?_).bind fun cmd' c2 h2 => ⟨h2.1, ?_⟩
    · rw [length_append]
      omega
    · rw [Cmd.map, h1.2, h2.2]

/-- `parsepipe` reads any pipe of the grammar. -/
theorem Complete.parsepipe (hp : Pipe us t) (hv : Follow [')', '&', ';'] vs)
    (hc : c.At str (us ++ vs)) (hn : 4 * (us ++ vs).length + 3 ≤ n + 1) :
    Sat (fun _ => False) (parsepipe (n + 1)) c (Left str vs t) := by
  rw [Sh.parsepipe]
  cases hp with
  | last he =>
    refine (h.exec he (hv.mono (by simp)) hc (by omega)).bind fun cmd c1 h1 => ?_
    refine sat_optional h1.1 rfl (by decide) (fun us _ _ hus => (hv.ne_sym (by simp) hus).elim) ?_
    exact fun _ c' hc' => ⟨hc', h1.2⟩
  | @bar ts us left right he hp =>
    rw [append_assoc, cons_append] at hc hn
    refine (h.exec he (follow_sym (by simp)) hc (by omega)).bind fun cmd c1 h1 => ?_
    refine sat_optional h1.1 rfl (by decide) ?_ fun hno => (hno _ rfl).elim
    rintro us' _ c' ⟨⟩ hc'
    simp only [length_append, length_cons] at hn
    refine (h.pipe hp hv hc' ?_).bind fun cmd' c2 h2 => ⟨h2.1, ?_⟩
    · rw [length_append]
      omega
    · rw [Cmd.map, h1.2, h2.2]

/-- `parseexec` reads any simple command or block of the grammar. -/
theorem Complete.parseexec (he : Exec us t)
    (hv : Follow ['|', ')', '&', ';'] vs) (hc : c.At str (us ++ vs))
    (hn : 4 * (us ++ vs).length + 2 ≤ n + 1) :
    Sat (fun _ => False) (parseexec (n + 1)) c (Left str vs t) := by
  rw [Sh.parseexec]
  cases he with
  | @block ts us cmd rs hl hr =>
    rw [append_assoc, cons_append, cons_append] at hc
    refine sat_peek_bind hc rfl fun c1 h1 => Sat.ite (fun _ => ?_) fun hno => (hno rfl).elim
    refine h.block hl hr hv h1 ?_
    simp only [length_append, length_cons, cons_append] at hn
    omega
  | @simple ts us ws rs rs' hr ha hw =>
    rw [append_assoc] at hc hn
    have hopen := hr.any_eq_false (ha.any_eq_false (hv.any_eq_false ['('] rfl))
    refine sat_peek_bind hc rfl fun c1 h1 => ?_
    rw [hopen]
    have hnext := ha.any_eq_false (hv.any_eq_false ['<', '>'] rfl)
    refine (parseredirs_complete hr h1 (by omega) hnext).bind fun cmd c2 h2 => ?_
    rw [length_append] at hn
    have hws : ([] ++ ws).length ≤ MAXARGS - 1 := hw
    exact argLoop_complete ha h2.1 (by omega) hws hv h2.2

/-- `parseblock` reads a line in parentheses, with the redirections behind it. -/
theorem Complete.parseblock {ws : List Tok} (hl : Line us t)
    (hr : Redirs ws rs) (hv : Follow ['|', ')', '&', ';'] vs)
    (hc : c.At str (.sym '(' :: (us ++ .sym ')' :: (ws ++ vs))))
    (hn : 4 * (us.length + ws.length + vs.length + 2) + 1 ≤ n + 1) :
    Sat (fun _ => False) (parseblock (n + 1)) c (Left str vs (wrap rs t)) := by
  rw [Sh.parseblock]
  refine sat_peek_bind hc rfl fun c1 h1 => ?_
  rw [sat_panicIf_bind]
  refine ⟨by rintro ⟨⟩, fun _ => sat_gettoken_sym h1 fun _ c2 h2 => ?_⟩
  refine (h.line hl (follow_sym (by simp)) h2 ?_).bind fun cmd c3 h3 => ?_
  · simp only [length_append, length_cons]
    omega
  refine sat_peek_bind h3.1 rfl fun c4 h4 => ?_
  rw [sat_panicIf_bind]
  refine ⟨by rintro ⟨⟩, fun _ => sat_gettoken_sym h4 fun _ c5 h5 => ?_⟩
  rw [← h3.2]
  refine parseredirs_complete hr h5 ?_ (hv.any_eq_false _ rfl)
  rw [length_append]
  omega

end

/-- With enough fuel for the tokens left, the routines read every sentence. -/
theorem complete (str : List Char) (n : Nat) : Complete str n := by
  induction n with
  | zero =>
    refine ⟨?_, ?_, ?_, ?_⟩
    · exact fun _ _ _ hn => absurd hn (by omega)
    · exact fun _ _ _ hn => absurd hn (by omega)
    · exact fun _ _ _ hn => absurd hn (by omega)
    · exact fun _ _ _ _ hn => absurd hn (by omega)
  | succ n ih => exact ⟨ih.parseline, ih.parsepipe, ih.parseexec, ih.parseblock⟩

end

/-! ## Strings -/

/-- The words of the line are still in memory. -/
structure Intact (str buf : List Char) : Prop where
  len : str.length < buf.length
  word : ∀ (i : Nat) (x : Char), str[i]? = some x → isWord x = true → buf[i]? = some x

/-- A string that has ended still ends. -/
def Ended (buf buf' : List Char) : Prop :=
  ∀ i : Nat, buf[i]? = some '\x00' → buf'[i]? = some '\x00'

/-- `nulterminate` marks the end of every word of the command. -/
def Marked (str : List Char) (cmd : Cmd Span) (buf buf' : List Char) : Prop :=
  Intact str buf' ∧ Ended buf buf' ∧ cmd.All fun w => buf'[w.2]? = some '\x00'

section
variable {str buf buf' junk : List Char} {w : Span} {cmd : Cmd Span} {c : Cursor} {ts vs : List Tok}

theorem Ended.trans {buf1 buf2 : List Char} (h : Ended buf buf1) (h' : Ended buf1 buf2) :
    Ended buf buf2 :=
  fun i hi => h' i (h i hi)

/-- One store of `nulterminate`, behind a word. -/
theorem sat_terminate (h : Intact str buf) (hw : WordAt str w) :
    Sat (fun _ => False) (terminate w.2) buf fun _ buf' =>
      Intact str buf' ∧ Ended buf buf' ∧ buf'[w.2]? = some '\x00' := by
  have hlt : w.2 < buf.length := Nat.lt_of_le_of_lt hw.bound h.len
  rw [terminate, sat_get_bind]
  refine Sat.ite (fun _ => ⟨⟨?_, fun i x hi hx => ?_⟩, fun i hi => ?_, ?_⟩) fun hno => hno hlt
  · rw [length_set]
    exact h.len
  · rw [getElem?_set_ne, h.word i x hi hx]
    rintro rfl
    have hstop := hw.stop x (by rw [head?_drop]; exact hi)
    exact Bool.false_ne_true (hstop.symm.trans hx)
  · rcases eq_or_ne w.2 i with rfl | hne
    · rw [getElem?_set_self hlt]
    · rw [getElem?_set_ne hne, hi]
  · rw [getElem?_set_self hlt]

/-- Two commands, one after the other. -/
theorem sat_nulterminate_both {left right : Cmd Span}
    (hl : Sat (fun _ => False) (nulterminate left) buf fun _ buf' => Marked str left buf buf')
    (hr : ∀ {buf'}, Intact str buf' →
      Sat (fun _ => False) (nulterminate right) buf' fun _ buf'' => Marked str right buf' buf'') :
    Sat (fun _ => False) (do nulterminate left; nulterminate right) buf fun _ buf' =>
      Marked str (.pipe left right) buf buf' := by
  refine hl.bind fun _ buf1 h1 => (hr h1.1).weaken fun _ buf2 h2 => ?_
  exact ⟨h2.1, h1.2.1.trans h2.2.1, h1.2.2.imp fun w hw => h2.2.1 _ hw, h2.2.2⟩

/-- `nulterminate` ends each word of the command with a NUL, and changes nothing else. -/
theorem sat_nulterminate (h : Intact str buf) (hcmd : cmd.All (WordAt str)) :
    Sat (fun _ => False) (nulterminate cmd) buf fun _ buf' => Marked str cmd buf buf' := by
  induction cmd generalizing buf with
  | exec argv null =>
    refine Sat.forM (I := fun pre buf' => Marked str (.exec pre null) buf buf') ?_ ?_
    · intro pre w post buf1 hargv h1
      have hw : WordAt str w := hcmd w (by rw [hargv]; simp)
      refine (sat_terminate h1.1 hw).weaken fun _ buf2 h2 => ?_
      refine ⟨h2.1, h1.2.1.trans h2.2.1, fun v hv => ?_⟩
      rcases mem_append.1 hv with hv | hv
      · exact h2.2.1 _ (h1.2.2 v hv)
      · rw [mem_singleton.1 hv]
        exact h2.2.2
    · exact ⟨h, fun _ hi => hi, fun _ hw => nomatch hw⟩
  | redir cmd file mode fd ih =>
    refine (ih h hcmd.1).bind fun _ buf1 h1 => ?_
    refine (sat_terminate h1.1 hcmd.2).weaken fun _ buf2 h2 => ?_
    exact ⟨h2.1, h1.2.1.trans h2.2.1, h1.2.2.imp fun w hw => h2.2.1 _ hw, h2.2.2⟩
  | pipe left right ihl ihr | list left right ihl ihr =>
    exact sat_nulterminate_both (ihl h hcmd.1) fun h' => ihr h' hcmd.2
  | back cmd ih => exact ih h hcmd

/-- Once its end is marked, the string at a word is the word. -/
theorem cstring_eq (hnul : '\x00' ∉ str) (h : Intact str buf) (hw : WordAt str w)
    (hend : buf[w.2]? = some '\x00') : cstring buf w.1 = slice str w := by
  have hle := hw.le
  have hbound := hw.bound
  have htake : (buf.drop w.1).take (w.2 - w.1) = slice str w := by
    refine ext_getElem? fun i => ?_
    rw [slice, getElem?_take, getElem?_take, getElem?_drop, getElem?_drop]
    split
    · rename_i hi
      have hlt : w.1 + i < str.length := by omega
      have hx : str[w.1 + i]? = some str[w.1 + i] := getElem?_eq_getElem hlt
      rw [hx, h.word _ _ hx (hw.word _ ?_)]
      refine mem_of_getElem? (i := i) ?_
      rw [slice, getElem?_take_of_lt hi, getElem?_drop, hx]
    · rfl
  have hdrop : (buf.drop w.1).drop (w.2 - w.1) = '\x00' :: buf.drop (w.2 + 1) := by
    obtain ⟨hlt, hget⟩ := List.getElem?_eq_some_iff.1 hend
    rw [drop_drop, Nat.add_sub_cancel' hle, drop_eq_getElem_cons hlt, hget]
  rw [cstring, ← take_append_drop (w.2 - w.1) (buf.drop w.1), htake, hdrop,
    takeWhile_append_of_pos, takeWhile_cons_of_neg (by simp), append_nil]
  intro x hx
  have hmem : x ∈ str := mem_of_mem_drop (mem_of_mem_take hx)
  exact decide_eq_true fun hx0 => hnul (hx0 ▸ hmem)

/-- Where no token is left, the cursor is at the end once it has skipped the white space. -/
theorem Cursor.At.pos_skip (hc : c.At str ts) : (c.skip isBlank).pos = str.length ↔ ts = [] := by
  obtain ⟨hpos, hrest⟩ := hc.1.skip isBlank
  have htok := c.tokens_skip.trans hc.2
  constructor
  · intro hend
    rw [← htok, hrest, hend, drop_length]
    rfl
  · rintro rfl
    refine Nat.le_antisymm hpos (drop_eq_nil_iff.1 ?_)
    rw [← hrest]
    have hhead := c.skip_head
    cases hs : (c.skip isBlank).rest with
    | nil => rfl
    | cons x s =>
      rw [hs] at hhead htok
      exact (tokens_ne_nil (hhead x rfl) htok).elim

section
variable (hnul : '\x00' ∉ str)
include hnul

theorem takeWhile_line :
    (str ++ '\x00' :: junk).takeWhile (· ≠ '\x00') = str := by
  rw [takeWhile_append_of_pos, takeWhile_cons_of_neg (by simp), append_nil]
  exact fun x hx => decide_eq_true fun hx0 => hnul (hx0 ▸ hx)

/-- `parsecmd` after `parseline`. -/
theorem parsecmd_eq : parsecmd (str ++ '\x00' :: junk) = do
    let (cmd, c) ← parseline (4 * str.length + 4) ⟨0, str⟩
    panicIf ((c.skip isBlank).pos ≠ str.length) "syntax"
    let (_, buf) ← nulterminate cmd (str ++ '\x00' :: junk)
    return (cmd, buf) := by
  rw [parsecmd, strlen, takeWhile_line hnul, take_left]
  rfl

theorem parsecmd_error {e : Stop} (h : parseline (4 * str.length + 4) ⟨0, str⟩ = .error e) :
    parsecmd (str ++ '\x00' :: junk) = .error e := by
  rw [parsecmd_eq hnul, h]
  rfl

/-- What `parsecmd` returns when `parseline` has read the whole line. -/
theorem parsecmd_ok (h : parseline (4 * str.length + 4) ⟨0, str⟩ = .ok (cmd, c)) (hc : c.At str [])
    (hall : cmd.All (WordAt str)) :
    ∃ buf, parsecmd (str ++ '\x00' :: junk) = .ok (cmd, buf) ∧
      cmd.All fun w => cstring buf w.1 = slice str w := by
  have hintact : Intact str (str ++ '\x00' :: junk) := by
    refine ⟨by simp, fun i x hi _ => ?_⟩
    obtain ⟨hlt, hget⟩ := List.getElem?_eq_some_iff.1 hi
    rw [getElem?_append_left hlt, hi]
  obtain ⟨_, buf, hnt, hmarked⟩ := (sat_nulterminate hintact hall).returns
  refine ⟨buf, ?_, ?_⟩
  · rw [parsecmd_eq hnul, h]
    have hend : ¬ (c.skip isBlank).pos ≠ str.length := not_not.2 (hc.pos_skip.2 rfl)
    change (panicIf _ _ >>= fun _ => _) = _
    rw [panicIf, if_neg hend, hnt]
    rfl
  · exact (hall.and hmarked.2.2).imp fun w hw => cstring_eq hnul hmarked.1 hw.1 hw.2

theorem parsecmd_leftovers (h : parseline (4 * str.length + 4) ⟨0, str⟩ = .ok (cmd, c)) (hc : c.At str ts)
    (hts : ts ≠ []) : parsecmd (str ++ '\x00' :: junk) = .error (.panic "syntax") := by
  rw [parsecmd_eq hnul, h]
  have hend : (c.skip isBlank).pos ≠ str.length := fun hend => hts (hc.pos_skip.1 hend)
  change (panicIf _ _ >>= fun _ => _) = _
  rw [panicIf, if_pos hend]
  rfl

end

/-- What `parseline` does to the whole line. -/
theorem sat_parseline_line :
    Sat Panics (parseline (4 * str.length + 4)) ⟨0, str⟩ (Taken str (tokens str) Line) := by
  refine (sound str _).line ⟨⟨Nat.zero_le _, rfl⟩, rfl⟩ ?_
  have hlen := length_tokens_le str
  omega

/-- A command that `parsecmd` returns stands for the line, and its strings are its words. -/
theorem parsecmd_eq_ok (hnul : '\x00' ∉ str)
    (hok : parsecmd (str ++ '\x00' :: junk) = .ok (cmd, buf)) :
    Line (tokens str) (cmd.map (slice str)) ∧ cmd.All (WordAt str) ∧
      cmd.All fun w => cstring buf w.1 = slice str w := by
  cases hline : parseline (4 * str.length + 4) ⟨0, str⟩ with
  | error e => cases (parsecmd_error hnul hline).symm.trans hok
  | ok r =>
    obtain ⟨us, vs, htok, hc, hder, hall⟩ := sat_parseline_line.of_ok hline
    cases vs with
    | cons v vs => cases (parsecmd_leftovers hnul hline hc nofun).symm.trans hok
    | nil =>
      obtain ⟨buf', hok', hstr⟩ := parsecmd_ok hnul hline hc hall
      cases hok'.symm.trans hok
      rw [append_nil] at htok
      exact ⟨htok ▸ hder, hall, hstr⟩

/-- `parsecmd` succeeds on the sentences of the grammar, with the command the sentence stands for, and
panics on every other line. -/
theorem parsecmd_accepts (str junk : List Char) (hnul : '\x00' ∉ str) :
    (∀ t, (∃ cmd buf, parsecmd (str ++ '\x00' :: junk) = .ok (cmd, buf) ∧
        cmd.map (fun w => cstring buf w.1) = t) ↔ Line (tokens str) t) ∧
      ((¬ ∃ t, Line (tokens str) t) →
        ∃ msg, parsecmd (str ++ '\x00' :: junk) = .error (.panic msg)) := by
  refine ⟨fun t => ⟨?_, fun ht => ?_⟩, fun hnone => ?_⟩
  · rintro ⟨cmd, buf, hok, rfl⟩
    obtain ⟨hline, -, hstr⟩ := parsecmd_eq_ok hnul hok
    rwa [Cmd.map_congr hstr]
  · have hstart : Cursor.At str (tokens str ++ []) ⟨0, str⟩ :=
      ⟨⟨Nat.zero_le _, rfl⟩, (append_nil _).symm⟩
    have hfuel : 4 * (tokens str ++ []).length + 4 ≤ 4 * str.length + 4 := by
      have hlen := length_tokens_le str
      rw [append_nil]
      omega
    obtain ⟨cmd, c, hline, hc, rfl⟩ := ((complete str _).line ht follow_nil hstart hfuel).returns
    obtain ⟨_, _, _, _, _, hall⟩ := sat_parseline_line.of_ok hline
    obtain ⟨buf, hok, hstr⟩ := parsecmd_ok hnul hline hc hall
    exact ⟨cmd, buf, hok, Cmd.map_congr hstr⟩
  · cases hline : parseline (4 * str.length + 4) ⟨0, str⟩ with
    | error e =>
      obtain ⟨msg, rfl⟩ := sat_parseline_line.of_error hline
      exact ⟨msg, parsecmd_error hnul hline⟩
    | ok r =>
      obtain ⟨us, vs, htok, hc, hder, hall⟩ := sat_parseline_line.of_ok hline
      cases vs with
      | cons v vs => exact ⟨_, parsecmd_leftovers hnul hline hc nofun⟩
      | nil =>
        rw [append_nil] at htok
        exact (hnone ⟨_, htok ▸ hder⟩).elim

/-- `a <f|b&`: a pipeline in the background, with a redirection around its left command. -/
theorem parsecmd_accepts_pipeline :
    ∃ cmd buf, parsecmd ['a', ' ', '<', 'f', '|', 'b', '&', '\x00'] = .ok (cmd, buf) ∧
      cmd.map (fun w => cstring buf w.1) =
        .back (.pipe (.redir (.ofWords [['a']]) ['f'] O_RDONLY 0) (.ofWords [['b']])) := by
  have hargs : Args [.word ['a'], .sym '<', .word ['f']] [['a']] [⟨['f'], O_RDONLY, 0⟩] :=
    .word (.cons rfl .nil) .nil
  have hleft : Exec [.word ['a'], .sym '<', .word ['f']]
      (.redir (.ofWords [['a']]) ['f'] O_RDONLY 0) := .simple .nil hargs (by decide)
  have hright : Exec [.word ['b']] (.ofWords [['b']]) := .simple .nil (.word .nil .nil) (by decide)
  have hline := Line.last (n := 1) (.bar hleft (.last hright))
  exact ((parsecmd_accepts ['a', ' ', '<', 'f', '|', 'b', '&'] [] (by decide)).1 _).2 hline

end

/-! ## The strings of a command -/

/-- Every `argv` has a null pointer in the slot behind its words, and there is such a slot. -/
def Cmd.NullEnded {α : Type} : Cmd α → Prop
  | .exec argv null => null = some argv.length ∧ argv.length < MAXARGS
  | .redir cmd _ _ _ => cmd.NullEnded
  | .pipe left right => left.NullEnded ∧ right.NullEnded
  | .list left right => left.NullEnded ∧ right.NullEnded
  | .back cmd => cmd.NullEnded

theorem Cmd.nullEnded_map {α β : Type} {f : α → β} {cmd : Cmd α} :
    (cmd.map f).NullEnded ↔ cmd.NullEnded := by
  induction cmd with
  | exec argv null => rw [map, NullEnded, NullEnded, length_map]
  | redir cmd file mode fd ih | back cmd ih => exact ih
  | pipe left right ihl ihr | list left right ihl ihr => exact and_congr ihl ihr

theorem nullEnded_wrap {rs : List Redir} {t : Cmd (List Char)} (h : t.NullEnded) :
    (wrap rs t).NullEnded := by
  induction rs generalizing t with
  | nil => exact h
  | cons r rs ih => exact ih (t := .redir t r.file r.mode r.fd) h

theorem nullEnded_back {n : Nat} {t : Cmd (List Char)} (h : t.NullEnded) :
    (Cmd.back^[n] t).NullEnded := by
  induction n generalizing t with
  | zero => exact h
  | succ n ih => exact ih (t := .back t) h

mutual

/-- The commands of the grammar have few enough words. -/
theorem Line.nullEnded {ts : List Tok} {t : Cmd (List Char)} : Line ts t → t.NullEnded
  | .last h => nullEnded_back h.nullEnded
  | .semi hl hr => ⟨nullEnded_back hl.nullEnded, hr.nullEnded⟩

theorem Pipe.nullEnded {ts : List Tok} {t : Cmd (List Char)} : Pipe ts t → t.NullEnded
  | .last h => h.nullEnded
  | .bar hl hr => ⟨hl.nullEnded, hr.nullEnded⟩

theorem Exec.nullEnded {ts : List Tok} {t : Cmd (List Char)} : Exec ts t → t.NullEnded
  | .block h _ => nullEnded_wrap h.nullEnded
  | .simple _ _ hw => nullEnded_wrap ⟨rfl, Nat.lt_of_le_of_lt hw (by decide)⟩

end

/-- On every line that `parsecmd` accepts: each string of the command, read from the line after
`nulterminate`, is the text between the two pointers that `gettoken` gave for it, which is a whole
word of the line, and every `argv` ends in a null pointer. -/
theorem nulterminate_words {str junk buf : List Char} {cmd : Cmd Span} (hnul : '\x00' ∉ str)
    (hok : parsecmd (str ++ '\x00' :: junk) = .ok (cmd, buf)) :
    cmd.All (fun w => WordAt str w ∧ cstring buf w.1 = slice str w) ∧ cmd.NullEnded := by
  obtain ⟨hline, hall, hstr⟩ := parsecmd_eq_ok hnul hok
  exact ⟨hall.and hstr, Cmd.nullEnded_map.1 hline.nullEnded⟩

/-- `a>f`: the terminator of the first word is written over the symbol. -/
theorem nulterminate_words_redir : ∃ buf,
    parsecmd ['a', '>', 'f', '\x00'] =
      .ok (.redir (.ofWords [(0, 1)]) (2, 3) (O_WRONLY ||| O_CREATE) 1, buf) ∧
      cstring buf 0 = ['a'] ∧ cstring buf 2 = ['f'] := by
  have hok : parsecmd (['a', '>', 'f'] ++ ['\x00']) =
      .ok (.redir (.ofWords [(0, 1)]) (2, 3) (O_WRONLY ||| O_CREATE) 1, ['a', '\x00', 'f', '\x00']) := rfl
  obtain ⟨⟨hargv, hfile⟩, -⟩ := nulterminate_words (by decide) hok
  exact ⟨_, hok, (hargv _ mem_cons_self).2, hfile.2⟩

end TronBoss.Sh
