import TronBoss.Grep.Match
import TronBoss.Lib.Outcome

/-!
# Reading the input of grep

The loop of `grep` over what `read` returns. It keeps the rest of a line for the next turn by moving
it to the start of the buffer, unless it has found no newline in the buffer: then it sets `m` to 0
and starts again with an empty buffer. So a read without a newline is forgotten, and grep is
independent of how the input is cut into reads only where that makes no difference.
-/

namespace TronBoss.Grep

open Lib List

/-! ## The program -/

/-- `sizeof(buf)`. -/
def BUFSIZE : Nat := 1024

/-- The string at a pointer, given by the characters from there to the end of the buffer. -/
def cstr (s : List Char) : List Char := s.takeWhile (· ≠ '\x00')

/-- `strchr`, as a distance. -/
def strchr (c : Char) : List Char → Option Nat
  | [] => none
  | x :: s => if x = '\x00' then none else if x = c then some 0 else (strchr c s).map (· + 1)

/-- The inner loop from `p`: `p` and the buffer behind it, and what it has written. The loop gets as
many turns as the buffer has characters. -/
def grepLines (pattern : List Char) : Nat → Nat → List Char →
    Except Stop (Nat × List Char × List Char)
  | 0, _, _ => .error .diverge
  | turns + 1, p, buf =>
    match strchr '\n' (buf.drop p) with
    | none => .ok (p, buf, [])
    | some k => do
      let q := p + k
      let buf := buf.set q '\x00'
      if reMatch pattern (cstr (buf.drop p)) then
        let buf := buf.set q '\n'
        let (p', buf', out) ← grepLines pattern turns (q + 1) buf
        return (p', buf', (buf.drop p).take (q + 1 - p) ++ out)
      else grepLines pattern turns (q + 1) buf

/-- A turn of the outer loop, with what `read` returns: some characters, and no more than it was
asked for. It gives what was written, `m` and the buffer. -/
def grepRead (pattern chunk : List Char) (m : Nat) (buf : List Char) :
    Except Stop (List Char × Nat × List Char) := do
  require (chunk ≠ [] ∧ chunk.length ≤ BUFSIZE - m - 1)
  let buf := buf.take m ++ chunk ++ buf.drop (m + chunk.length)
  let m := m + chunk.length
  let buf := buf.set m '\x00'
  let (p, buf, out) ← grepLines pattern BUFSIZE 0 buf
  let m := if p = 0 then 0 else m
  if 0 < m then
    return (out, m - p, (buf.drop p).take (m - p) ++ buf.drop (m - p))
  else return (out, m, buf)

/-- The outer loop, over what `read` returns until it returns 0. -/
def grepLoop (pattern : List Char) : List (List Char) → Nat → List Char → Except Stop (List Char)
  | [], _, _ => .ok []
  | chunk :: chunks, m, buf => do
    let (out, m, buf) ← grepRead pattern chunk m buf
    return out ++ (← grepLoop pattern chunks m buf)

/-- `grep`, with what the buffer holds before. -/
def grep (pattern : List Char) (chunks : List (List Char)) (buf : List Char) :
    Except Stop (List Char) := grepLoop pattern chunks 0 buf

/-! ## Lines -/

/-- The lines of a text that end in a newline. -/
def lines (s : List Char) : List (List Char) := (s.splitOn '\n').dropLast

/-- What comes behind the last newline. -/
def rest (s : List Char) : List Char := (s.splitOn '\n').getLast (splitOn_ne_nil _ _)

/-- Lines with their newlines. -/
def written (ls : List (List Char)) : List Char := ls.flatMap (· ++ ['\n'])

/-- The lines of a text that match. -/
def matching (pattern s : List Char) : List Char := written ((lines s).filter (reMatch pattern))

section
variable {w s u v : List Char}

theorem lines_of_not_mem (h : '\n' ∉ w) : lines w = [] ∧ rest w = w := by
  simp only [lines, rest, splitOn_eq_singleton h]
  exact ⟨rfl, rfl⟩

theorem lines_cons (h : '\n' ∉ w) :
    lines (w ++ '\n' :: s) = w :: lines s ∧ rest (w ++ '\n' :: s) = rest s := by
  simp only [lines, rest, splitOn_append_cons_self_of_not_mem h]
  exact ⟨dropLast_cons_of_ne_nil (splitOn_ne_nil _ _), getLast_cons _⟩

/-- A text is a rest, or a line and a text. -/
theorem line_induction {P : List Char → Prop} (hrest : ∀ w, '\n' ∉ w → P w)
    (hline : ∀ w s, '\n' ∉ w → P s → P (w ++ '\n' :: s)) (s : List Char) : P s := by
  induction hn : s.length using Nat.strong_induction_on generalizing s with
  | _ n ih =>
    by_cases h : '\n' ∈ s
    · obtain ⟨w, t, rfl, hw⟩ := eq_append_cons_of_mem h
      refine hline w t hw (ih t.length ?_ t rfl)
      rw [← hn, length_append, length_cons]
      omega
    · exact hrest s h

theorem not_mem_rest (s : List Char) : '\n' ∉ rest s := by
  induction s using line_induction with
  | hrest w hw => rwa [(lines_of_not_mem hw).2]
  | hline w s hw ih => rwa [(lines_cons hw).2]

/-- The lines of a text in two parts: the rest of the first part goes on in the second. -/
theorem lines_append (u s : List Char) : lines (u ++ s) = lines u ++ lines (rest u ++ s) := by
  induction u using line_induction with
  | hrest w hw => rw [(lines_of_not_mem hw).1, (lines_of_not_mem hw).2, nil_append]
  | hline w u hw ih =>
    rw [append_assoc, cons_append, (lines_cons hw).1, (lines_cons hw).1,
      (lines_cons hw).2, ih, cons_append]

theorem written_append (l m : List (List Char)) : written (l ++ m) = written l ++ written m :=
  flatMap_append

/-- A text is its lines and its rest. -/
theorem written_lines_append_rest (s : List Char) : written (lines s) ++ rest s = s := by
  induction s using line_induction with
  | hrest w hw =>
    rw [(lines_of_not_mem hw).1, (lines_of_not_mem hw).2]
    rfl
  | hline w s hw ih =>
    rw [(lines_cons hw).1, (lines_cons hw).2, written, flatMap_cons, append_assoc]
    exact (append_assoc ..).trans (congrArg (w ++ '\n' :: ·) ih)

/-- More characters in front of a text with a line. -/
theorem length_written_lines_append (hu : '\n' ∉ u) (hs : '\n' ∈ s) :
    (written (lines (u ++ s))).length = u.length + (written (lines s)).length := by
  obtain ⟨w, t, rfl, hw⟩ := eq_append_cons_of_mem hs
  have huw : '\n' ∉ u ++ w := not_mem_append hu hw
  rw [← append_assoc, (lines_cons huw).1, (lines_cons hw).1]
  simp only [written, flatMap_cons, length_append]
  omega

/-! ## One read -/

theorem strchr_newline (hw : '\n' ∉ w) (h0 : '\x00' ∉ w) :
    strchr '\n' (w ++ '\n' :: s) = some w.length := by
  induction w with
  | nil => rfl
  | cons x w ih =>
    rw [mem_cons, not_or] at hw h0
    rw [cons_append, strchr, if_neg (Ne.symm h0.1), if_neg (Ne.symm hw.1), ih hw.2 h0.2]
    rfl

theorem strchr_nul (hw : '\n' ∉ w) : strchr '\n' (w ++ '\x00' :: s) = none := by
  induction w with
  | nil => rfl
  | cons x w ih =>
    rw [mem_cons, not_or] at hw
    rw [cons_append, strchr, if_neg (Ne.symm hw.1), ih hw.2]
    split <;> rfl

theorem cstr_append (h0 : '\x00' ∉ w) : cstr (w ++ '\x00' :: s) = w := by
  rw [cstr, takeWhile_append_of_pos, takeWhile_cons_of_neg, append_nil]
  · simp
  · exact fun x hx => decide_eq_true fun e => h0 (e ▸ hx)

/-- The inner loop writes the lines of the buffer that match, and stops behind the last of them. -/
theorem grepLines_eq (pattern : List Char) {text : List Char} (h0 : '\x00' ∉ text) (turns : Nat)
    (ht : text.length < turns) (gone after : List Char) :
    ∃ gone', gone'.length = gone.length + (written (lines text)).length ∧
      grepLines pattern turns gone.length (gone ++ (text ++ '\x00' :: after)) =
        .ok (gone'.length, gone' ++ (rest text ++ '\x00' :: after), matching pattern text) := by
  induction text using line_induction generalizing turns gone with
  | hrest w hw =>
    obtain ⟨turns, rfl⟩ := Nat.exists_eq_add_of_lt ht
    refine ⟨gone, by rw [(lines_of_not_mem hw).1]; rfl, ?_⟩
    rw [grepLines, drop_left, strchr_nul hw, matching, (lines_of_not_mem hw).1,
      (lines_of_not_mem hw).2]
    rfl
  | hline w s hw ih =>
    obtain ⟨turns, rfl⟩ := Nat.exists_eq_succ_of_ne_zero (Nat.ne_zero_of_lt ht)
    rw [mem_append, mem_cons, not_or, not_or] at h0
    rw [length_append, length_cons] at ht
    have hset : ∀ x y, (gone ++ (w ++ x :: (s ++ '\x00' :: after))).set (gone.length + w.length) y =
        gone ++ (w ++ y :: (s ++ '\x00' :: after)) := by
      intro x y
      simp
    -- the turns that are left see the buffer from behind the newline on
    have hturn : ∀ x, ∃ gone', gone'.length = gone.length + (written (w :: lines s)).length ∧
        grepLines pattern turns (gone.length + w.length + 1)
            (gone ++ (w ++ x :: (s ++ '\x00' :: after))) =
          .ok (gone'.length, gone' ++ (rest s ++ '\x00' :: after), matching pattern s) := by
      intro x
      obtain ⟨gone', hlen, hrun⟩ := ih h0.2.2 turns (by omega) (gone ++ (w ++ [x]))
      refine ⟨gone', ?_, ?_⟩
      · rw [hlen]
        simp only [written, flatMap_cons, length_append, length_singleton]
        omega
      · rw [← hrun]
        simp [Nat.add_assoc]
    rw [append_assoc, cons_append, grepLines, drop_left, strchr_newline hw h0.1]
    simp only [hset, drop_left, cstr_append h0.1, matching, (lines_cons hw).1,
      (lines_cons hw).2, filter_cons]
    split
    · obtain ⟨gone', hlen, hrun⟩ := hturn '\n'
      refine ⟨gone', hlen, ?_⟩
      rw [hrun]
      simp [matching, written, take_append, Nat.add_assoc]
    · exact hturn '\x00'

end

/-! ## All reads -/

/-- What grep keeps of the characters it has, after a read. -/
def kept (carry chunk : List Char) : List Char :=
  if '\n' ∈ chunk then rest (carry ++ chunk) else []

/-- Every read returns some characters, and they fit behind what grep has kept. -/
def Fits : List Char → List (List Char) → Prop
  | _, [] => True
  | carry, chunk :: chunks =>
    chunk ≠ [] ∧ carry.length + chunk.length < BUFSIZE ∧ Fits (kept carry chunk) chunks

instance decidableFits : (carry : List Char) → (chunks : List (List Char)) →
    Decidable (Fits carry chunks)
  | _, [] => inferInstanceAs (Decidable True)
  | carry, chunk :: chunks =>
    have := decidableFits (kept carry chunk) chunks
    inferInstanceAs (Decidable (_ ∧ _ ∧ _))

/-- The lines as grep sees them. -/
def seen : List Char → List (List Char) → List (List Char)
  | _, [] => []
  | carry, chunk :: chunks => lines (carry ++ chunk) ++ seen (kept carry chunk) chunks

/-- A read without a newline is the end of the lines. -/
def NoGap (chunks : List (List Char)) : Prop :=
  chunks.Pairwise fun c d => '\n' ∈ d → '\n' ∈ c

instance (chunks : List (List Char)) : Decidable (NoGap chunks) :=
  inferInstanceAs (Decidable (List.Pairwise _ _))

section
variable {carry buf : List Char} {chunks : List (List Char)} (pattern : List Char)

theorem not_mem_kept (chunk : List Char) : '\n' ∉ kept carry chunk := by
  unfold kept
  split
  · exact not_mem_rest _
  · exact not_mem_nil

/-- A turn of the outer loop writes the lines that match, and keeps what is behind the last line. -/
theorem grepRead_eq {chunk : List Char} (h0 : '\x00' ∉ carry ++ chunk) (hc : '\n' ∉ carry)
    (hbuf : buf.length = BUFSIZE) (hcarry : carry <+: buf) (hne : chunk ≠ [])
    (hlen : carry.length + chunk.length < BUFSIZE) :
    ∃ buf', grepRead pattern chunk carry.length buf =
        .ok (matching pattern (carry ++ chunk), (kept carry chunk).length, buf') ∧
      buf'.length = BUFSIZE ∧ kept carry chunk <+: buf' := by
  obtain ⟨after, rfl⟩ := hcarry
  rw [length_append] at hbuf
  obtain ⟨x, after', hx⟩ : ∃ x after', after.drop chunk.length = x :: after' :=
    exists_cons_of_ne_nil fun e => by
      rw [drop_eq_nil_iff] at e
      omega
  have hafter := congrArg List.length hx
  rw [length_drop, length_cons] at hafter
  have hread : ((carry ++ after).take carry.length ++ chunk ++
        (carry ++ after).drop (carry.length + chunk.length)).set
          (carry.length + chunk.length) '\x00' = carry ++ chunk ++ '\x00' :: after' := by
    rw [take_left, ← drop_drop, drop_left, hx, ← length_append]
    simp
  obtain ⟨gone, hgone, hrun⟩ := grepLines_eq pattern h0 BUFSIZE
    (by rw [length_append]; exact hlen) [] after'
  rw [length_nil, Nat.zero_add] at hgone
  rw [length_nil, nil_append] at hrun
  rw [grepRead, require_pos ⟨hne, by omega⟩, ok_bind]
  simp only [hread]
  rw [hrun, ok_bind]
  have htext := congrArg List.length (written_lines_append_rest (carry ++ chunk))
  rw [length_append, length_append] at htext
  unfold kept
  by_cases hnl : '\n' ∈ chunk
  · have hpos : 0 < gone.length := by
      rw [hgone, length_written_lines_append hc hnl]
      obtain ⟨w, t, rfl, hw⟩ := eq_append_cons_of_mem hnl
      simp only [(lines_cons hw).1, written, flatMap_cons, length_append,
        length_singleton]
      omega
    have hm : carry.length + chunk.length - gone.length = (rest (carry ++ chunk)).length := by omega
    simp only [if_neg hpos.ne', if_pos hnl, hm, drop_left, take_left]
    rw [if_pos (by omega)]
    refine ⟨_, rfl, ?_, prefix_append ..⟩
    simp only [length_append, length_drop, length_cons]
    omega
  · have hgone0 : gone = [] := by
      rw [← length_eq_zero_iff, hgone, (lines_of_not_mem (not_mem_append hc hnl)).1]
      rfl
    simp only [hgone0, length_nil, if_true, if_neg hnl, lt_irrefl, if_false]
    refine ⟨_, rfl, ?_, List.nil_prefix⟩
    rw [(lines_of_not_mem (not_mem_append hc hnl)).2]
    simp only [length_append, length_cons, length_nil]
    omega

/-- The outer loop writes the lines that it sees and that match. -/
theorem grepLoop_eq (h0 : '\x00' ∉ carry ++ chunks.flatten) (hc : '\n' ∉ carry)
    (hbuf : buf.length = BUFSIZE) (hcarry : carry <+: buf) (hfit : Fits carry chunks) :
    grepLoop pattern chunks carry.length buf =
      .ok (written ((seen carry chunks).filter (reMatch pattern))) := by
  induction chunks generalizing carry buf with
  | nil => rfl
  | cons chunk chunks ih =>
    rw [flatten_cons, ← append_assoc, mem_append, not_or] at h0
    obtain ⟨hne, hlen, hfit⟩ := hfit
    obtain ⟨buf', hrun, hbuf', hkept⟩ := grepRead_eq pattern h0.1 hc hbuf hcarry hne hlen
    have hnext : '\x00' ∉ kept carry chunk ++ chunks.flatten := by
      refine fun h => (mem_append.1 h).elim (fun h => h0.1 ?_) h0.2
      unfold kept at h
      split at h
      · rw [← written_lines_append_rest (carry ++ chunk)]
        exact mem_append_right _ h
      · cases h
    rw [grepLoop, hrun, ok_bind, seen, filter_append, written_append]
    dsimp only
    rw [ih hnext (not_mem_kept chunk) hbuf' hkept hfit]
    rfl

/-- Grep sees the lines of the input if no read without a newline comes before a newline, and else
it sees less. -/
theorem seen_eq (hc : '\n' ∉ carry) (hfit : Fits carry chunks) :
    (NoGap chunks → seen carry chunks = lines (carry ++ chunks.flatten)) ∧
      (¬ NoGap chunks → (written (seen carry chunks)).length <
        (written (lines (carry ++ chunks.flatten))).length) := by
  induction chunks generalizing carry with
  | nil =>
    refine ⟨fun _ => ?_, fun h => absurd .nil h⟩
    rw [flatten_nil, append_nil, (lines_of_not_mem hc).1, seen]
  | cons chunk chunks ih =>
    obtain ⟨hne, -, hfit⟩ := hfit
    obtain ⟨heq, hlt⟩ := ih (not_mem_kept chunk) hfit
    rw [NoGap, pairwise_cons, flatten_cons, ← append_assoc, lines_append, seen,
      written_append, written_append, length_append, length_append]
    unfold kept at heq hlt ⊢
    by_cases hnl : '\n' ∈ chunk
    · simp only [if_pos hnl] at heq hlt ⊢
      refine ⟨fun h => by rw [heq h.2], fun h => Nat.add_lt_add_left (hlt fun hp => ?_) _⟩
      exact h ⟨fun _ _ _ => hnl, hp⟩
    · have hcc : '\n' ∉ carry ++ chunk := not_mem_append hc hnl
      simp only [if_neg hnl, nil_append] at heq hlt ⊢
      rw [(lines_of_not_mem hcc).1, (lines_of_not_mem hcc).2]
      by_cases hmore : '\n' ∈ chunks.flatten
      · obtain ⟨d, hd, hnd⟩ := mem_flatten.1 hmore
        refine ⟨fun h => absurd (h.1 d hd hnd) hnl, fun _ => ?_⟩
        have hle : (written (seen [] chunks)).length ≤ (written (lines chunks.flatten)).length := by
          by_cases hp : NoGap chunks
          · rw [heq hp]
          · exact (hlt hp).le
        rw [length_written_lines_append hcc hmore, length_append]
        have := length_pos_of_ne_nil hne
        omega
      · have hno : ∀ d ∈ chunks, '\n' ∉ d := fun d hd h => hmore (mem_flatten.2 ⟨d, hd, h⟩)
        have hgap : NoGap chunks := pairwise_of_forall_mem_list fun c _ d hd h =>
          absurd h (hno d hd)
        refine ⟨fun _ => ?_, fun h => absurd ⟨fun d hd h => absurd h (hno d hd), hgap⟩ h⟩
        rw [heq hgap, (lines_of_not_mem hmore).1,
          (lines_of_not_mem (not_mem_append hcc hmore)).1]

/-- On a NUL-free input that `read` returns in parts that fit: grep writes exactly the lines that
match, for every pattern, if and only if no read without a newline comes before a newline. -/
theorem grep_eq_matching_iff (h0 : '\x00' ∉ chunks.flatten) (hbuf : buf.length = BUFSIZE)
    (hfit : Fits [] chunks) :
    (∀ pattern, grep pattern chunks buf = .ok (matching pattern chunks.flatten)) ↔
      NoGap chunks := by
  have hrun := fun pattern => grepLoop_eq pattern h0 not_mem_nil hbuf List.nil_prefix hfit
  obtain ⟨heq, hlt⟩ := seen_eq not_mem_nil hfit
  constructor
  · intro h
    by_contra hgap
    -- the empty pattern matches every line
    have hall : ∀ ls : List (List Char), ls.filter (reMatch []) = ls := fun ls =>
      filter_eq_self.2 fun l _ => by cases l <;> rfl
    have h := (hrun []).symm.trans (h [])
    rw [matching, hall, hall] at h
    exact (hlt hgap).ne (congrArg List.length (Except.ok.inj h))
  · intro hgap pattern
    rw [grep, ← length_nil, hrun, heq hgap]
    rfl

end

/-- An input in two reads that each end in a newline. -/
theorem grep_eq_matching_lines :
    NoGap ["ab\n".toList, "b\nc".toList] ∧
      grep "^b".toList ["ab\n".toList, "b\nc".toList] (List.replicate BUFSIZE '\x00') =
        .ok (matching "^b".toList "ab\nb\nc".toList) := by
  have hgap : NoGap ["ab\n".toList, "b\nc".toList] := by decide
  exact ⟨hgap, (grep_eq_matching_iff (by decide) length_replicate (by decide)).2 hgap _⟩

/-- The line `ab` arrives in two reads, and grep forgets its first character. -/
theorem grep_forgets :
    Fits [] ["a".toList, "b\n".toList] ∧
      grep "a".toList ["a".toList, "b\n".toList] (List.replicate BUFSIZE '\x00') = .ok [] ∧
      matching "a".toList "ab\n".toList = "ab\n".toList := by
  decide +kernel

end TronBoss.Grep
