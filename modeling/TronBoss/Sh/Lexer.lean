import Mathlib.Data.List.TakeWhile
import TronBoss.Lib.Hoare

/-!
# The tokens of the shell

`gettoken` and `peek` of `sh.c`. They walk over a string with a cursor that the parser shares, and
both skip white space first. `tokens` says what a string is read as, and the lemmas about the two
functions say what they do to the tokens that are left.
-/

namespace TronBoss.Sh

open Lib List

def whitespace : List Char := [' ', '\t', '\r', '\n', '\x0b']

def symbols : List Char := ['<', '|', '>', '&', ';', '(', ')']

def isBlank (x : Char) : Bool := whitespace.contains x

def isSymbol (x : Char) : Bool := symbols.contains x

/-- A character of a word. -/
def isWord (x : Char) : Bool := !isBlank x && !isSymbol x

/-- The pointer `*ps`, with the characters from there up to `es`. -/
structure Cursor where
  pos : Nat
  rest : List Char

/-- A routine that moves the cursor. -/
abbrev ShM : Type → Type := Routine Cursor

/-- `while(s < es && p(*s)) s++`. -/
def Cursor.skip (p : Char → Bool) (c : Cursor) : Cursor where
  pos := c.pos + (c.rest.takeWhile p).length
  rest := c.rest.dropWhile p

/-- What `gettoken` returns: 0, the symbol, `'+'` for `>>`, or `'a'` for a word. -/
inductive Kind where
  | eof
  | sym (x : Char)
  | append
  | word
  deriving DecidableEq

/-- The `switch` of `gettoken`. -/
def scanToken (s : Cursor) : Kind × Cursor :=
  match s.rest with
  | [] => (.eof, s)
  | '>' :: '>' :: rest => (.append, ⟨s.pos + 2, rest⟩)
  | x :: rest => if isSymbol x then (.sym x, ⟨s.pos + 1, rest⟩) else (.word, s.skip isWord)

/-- `gettoken`, with `*q` and `*eq`. -/
def gettoken : ShM (Kind × Nat × Nat) := do
  let s := (← get).skip isBlank
  let (ret, s') := scanToken s
  set (s'.skip isBlank)
  return (ret, s.pos, s'.pos)

def peek (toks : List Char) : ShM Bool := do
  let s := (← get).skip isBlank
  set s
  return match s.rest with
    | [] => false
    | x :: _ => toks.contains x

/-! ## Tokens -/

/-- A token. -/
inductive Tok where
  | word (w : List Char)
  | sym (x : Char)
  | append
  deriving DecidableEq

/-- A word, unless it is empty. -/
def flush (w : List Char) : List Tok := if w = [] then [] else [.word w]

/-- The tokens of a string that comes after the part `w` of a word. -/
def tokensFrom (w : List Char) : List Char → List Tok
  | [] => flush w
  | '>' :: '>' :: s => flush w ++ .append :: tokensFrom [] s
  | x :: s =>
    if isBlank x then flush w ++ tokensFrom [] s
    else if isSymbol x then flush w ++ .sym x :: tokensFrom [] s
    else tokensFrom (w ++ [x]) s

/-- The tokens of a string. -/
def tokens (s : List Char) : List Tok := tokensFrom [] s

/-- The token starts with one of some symbols. -/
def Tok.startsIn (toks : List Char) : Tok → Bool
  | .word _ => false
  | .sym x => toks.contains x
  | .append => toks.contains '>'

section
variable {x : Char} {s w : List Char}

theorem tokens_append : tokens ('>' :: '>' :: s) = .append :: tokens s := by
  rw [tokens, tokensFrom]
  rfl

theorem tokens_blank (hx : isBlank x = true) : tokens (x :: s) = tokens s := by
  rw [tokens, tokensFrom, if_pos hx]
  · rfl
  · rintro s' rfl
    exact nomatch hx

theorem tokens_sym (hx : isSymbol x = true) (hgt : x = '>' → s.head? ≠ some '>') :
    tokens (x :: s) = .sym x :: tokens s := by
  have hblank : isBlank x = false := by
    simp only [isSymbol, symbols, contains_iff_mem, mem_cons, not_mem_nil, or_false]
      at hx
    rcases hx with rfl | rfl | rfl | rfl | rfl | rfl | rfl <;> rfl
  rw [tokens, tokensFrom, if_neg (by simp [hblank]), if_pos hx]
  · rfl
  · rintro s' rfl rfl
    exact hgt rfl rfl

/-- Characters of a word go on with the word. -/
theorem tokensFrom_word (u : List Char) (hu : ∀ x ∈ u, isWord x = true) :
    tokensFrom w (u ++ s) = tokensFrom (w ++ u) s := by
  induction u generalizing w with
  | nil => simp
  | cons x u ih =>
    have hx := hu x mem_cons_self
    rw [isWord, Bool.and_eq_true, Bool.not_eq_true', Bool.not_eq_true'] at hx
    rw [cons_append, tokensFrom, if_neg (by simp [hx.1]), if_neg (by simp [hx.2]),
      ih fun y hy => hu y (mem_cons_of_mem x hy), append_assoc, singleton_append]
    rintro s' rfl
    exact nomatch hx.2

/-- A word ends where no character of a word follows. -/
theorem tokensFrom_flush (hs : ∀ x ∈ s.head?, isWord x = false) :
    tokensFrom w s = flush w ++ tokens s := by
  cases s with
  | nil => simp [tokens, tokensFrom, flush]
  | cons x s =>
    have hx := hs x rfl
    rcases em (x = '>' ∧ s.head? = some '>') with hgt | hgt
    · obtain ⟨rfl, hs'⟩ := hgt
      obtain ⟨s, rfl⟩ := head?_eq_some_iff.1 hs'
      rw [tokens_append, tokensFrom]
      rfl
    · have hne : ∀ s', x = '>' → s = '>' :: s' → False := by
        rintro s' rfl rfl
        exact hgt ⟨rfl, rfl⟩
      rw [tokensFrom.eq_3 _ _ _ hne]
      cases hblank : isBlank x with
      | true => rw [if_pos rfl, tokens_blank hblank, tokens]
      | false =>
        have hsym : isSymbol x = true := by simpa [isWord, hblank] using hx
        rw [if_neg Bool.false_ne_true, if_pos hsym, tokens_sym hsym fun h hs' => hgt ⟨h, hs'⟩, tokens]

/-- A word is as long as it can be. -/
theorem tokens_word (hx : isWord x = true) : tokens (x :: s) =
    .word (x :: s.takeWhile isWord) :: tokens (s.dropWhile isWord) := by
  have hsplit : x :: s = (x :: s.takeWhile isWord) ++ s.dropWhile isWord := by
    rw [cons_append, takeWhile_append_dropWhile]
  have hword : ∀ y ∈ x :: s.takeWhile isWord, isWord y = true := by
    intro y hy
    rcases mem_cons.1 hy with rfl | hy
    · exact hx
    · exact mem_takeWhile_imp hy
  have hend : ∀ y ∈ (s.dropWhile isWord).head?, isWord y = false := by
    intro y hy
    have hnot := head?_dropWhile_not isWord s
    rw [Option.mem_def] at hy
    simpa [hy] using hnot
  calc tokens (x :: s)
      = tokensFrom [] ((x :: s.takeWhile isWord) ++ s.dropWhile isWord) := by rw [← hsplit, tokens]
    _ = flush (x :: s.takeWhile isWord) ++ tokens (s.dropWhile isWord) := by
      rw [tokensFrom_word _ hword, tokensFrom_flush hend, nil_append]

/-- A character that is not blank starts a token. -/
theorem tokens_ne_nil (hx : isBlank x = false) : tokens (x :: s) ≠ [] := by
  cases hsym : isSymbol x with
  | true =>
    rcases em (x = '>' ∧ s.head? = some '>') with hgt | hgt
    · obtain ⟨rfl, hs⟩ := hgt
      obtain ⟨s, rfl⟩ := head?_eq_some_iff.1 hs
      rw [tokens_append]
      nofun
    · rw [tokens_sym hsym fun h hs => hgt ⟨h, hs⟩]
      nofun
  | false =>
    have hword : isWord x = true := by simp [isWord, hx, hsym]
    rw [tokens_word hword]
    nofun

theorem length_flush_le : (flush w).length ≤ w.length := by
  rw [flush]
  split
  · exact Nat.zero_le _
  · exact length_pos_iff.2 ‹_›

/-- A line has at most as many tokens as characters. -/
theorem length_tokensFrom_le : (tokensFrom w s).length ≤ w.length + s.length := by
  induction w, s using tokensFrom.induct with
  | case1 w => exact length_flush_le
  | case2 w s ih =>
    have hw := @length_flush_le w
    rw [tokensFrom, length_append, length_cons, length_cons, length_cons]
    rw [length_nil] at ih
    omega
  | case3 w x s hne hx ih =>
    have hw := @length_flush_le w
    rw [tokensFrom.eq_3 _ _ _ hne, if_pos hx, length_append, length_cons]
    rw [length_nil] at ih
    omega
  | case4 w x s hne hx hsym ih =>
    have hw := @length_flush_le w
    rw [tokensFrom.eq_3 _ _ _ hne, if_neg hx, if_pos hsym, length_append, length_cons,
      length_cons]
    rw [length_nil] at ih
    omega
  | case5 w x s hne hx hsym ih =>
    rw [tokensFrom.eq_3 _ _ _ hne, if_neg hx, if_neg hsym, length_cons]
    rw [length_append, length_singleton] at ih
    omega

theorem length_tokens_le (s : List Char) : (tokens s).length ≤ s.length := by
  have h := @length_tokensFrom_le s []
  rwa [length_nil, Nat.zero_add] at h

theorem tokens_skip : tokens (s.dropWhile isBlank) = tokens s := by
  induction s with
  | nil => rfl
  | cons x s ih =>
    rw [dropWhile_cons]
    split
    · rw [ih, tokens_blank ‹_›]
    · rfl

end

/-! ## What the two functions do to the tokens -/

/-- The cursor is in the string. -/
def Cursor.In (str : List Char) (c : Cursor) : Prop :=
  c.pos ≤ str.length ∧ c.rest = str.drop c.pos

/-- The characters between two pointers. -/
def slice (str : List Char) (w : Nat × Nat) : List Char := (str.drop w.1).take (w.2 - w.1)

/-- The pointers are those to the start and the end of a word. -/
structure WordAt (str : List Char) (w : Nat × Nat) : Prop where
  le : w.1 ≤ w.2
  bound : w.2 ≤ str.length
  word : ∀ x ∈ slice str w, isWord x = true
  stop : ∀ x ∈ (str.drop w.2).head?, isWord x = false

/-- What `gettoken` returns, the tokens before and after it. -/
inductive Reads (str : List Char) : Kind → Nat × Nat → List Tok → List Tok → Prop where
  | eof {w : Nat × Nat} : Reads str .eof w [] []
  | sym {w : Nat × Nat} {x : Char} {ts : List Tok} : Reads str (.sym x) w (.sym x :: ts) ts
  | append {w : Nat × Nat} {ts : List Tok} : Reads str .append w (.append :: ts) ts
  | word {w : Nat × Nat} {ts : List Tok} (hw : WordAt str w) :
    Reads str .word w (.word (slice str w) :: ts) ts

section
variable {str : List Char} {k : Kind} {w : Nat × Nat} {t : Tok} {ts us : List Tok}

theorem Reads.tail (h : Reads str k w (t :: ts) us) : us = ts := by
  cases h <;> rfl

theorem Reads.of_eof (h : Reads str k w ts us) (hk : k = .eof) : ts = [] ∧ us = [] := by
  cases h with
  | eof => exact ⟨rfl, rfl⟩
  | word | sym | append => cases hk

theorem Reads.of_word (h : Reads str k w ts us) (hk : k = .word) :
    WordAt str w ∧ ts = .word (slice str w) :: us := by
  cases h with
  | word hw => exact ⟨hw, rfl⟩
  | eof | sym | append => cases hk

end

section
variable {str : List Char} {c : Cursor} {E : Stop → Prop}

theorem Cursor.In.advance {n : Nat} {rest : List Char} (hc : c.In str) (hn : n ≤ c.rest.length)
    (hrest : c.rest.drop n = rest) : Cursor.In str ⟨c.pos + n, rest⟩ := by
  have hle := congrArg List.length hc.2
  rw [length_drop] at hle
  have hpos := hc.1
  refine ⟨?_, ?_⟩
  · change c.pos + n ≤ str.length
    omega
  · change rest = str.drop (c.pos + n)
    rw [← hrest, hc.2, drop_drop]

theorem Cursor.In.skip (hc : c.In str) (p : Char → Bool) : (c.skip p).In str := by
  have hdrop := @List.drop_left _ (c.rest.takeWhile p) (c.rest.dropWhile p)
  rw [takeWhile_append_dropWhile] at hdrop
  exact hc.advance (List.takeWhile_prefix p).length_le hdrop

theorem Cursor.tokens_skip (c : Cursor) : tokens (c.skip isBlank).rest = tokens c.rest :=
  Sh.tokens_skip

/-- One token. -/
theorem scanToken_spec (hc : c.In str) (hblank : ∀ x ∈ c.rest.head?, isBlank x = false) :
    (scanToken c).2.In str ∧
      Reads str (scanToken c).1 (c.pos, (scanToken c).2.pos) (tokens c.rest)
        (tokens (scanToken c).2.rest) := by
  obtain ⟨pos, rest⟩ := c
  rw [scanToken]
  split
  · rename_i heq
    obtain rfl : rest = [] := heq
    exact ⟨hc, .eof⟩
  · rename_i rest' heq
    obtain rfl : rest = '>' :: '>' :: rest' := heq
    refine ⟨hc.advance (by simp) rfl, ?_⟩
    rw [tokens_append]
    exact .append
  · rename_i x rest' hne heq
    obtain rfl : rest = x :: rest' := heq
    split
    · rename_i hsym
      refine ⟨hc.advance (by simp) rfl, ?_⟩
      have hgt : x = '>' → rest'.head? ≠ some '>' := by
        rintro rfl hhead
        obtain ⟨s, rfl⟩ := head?_eq_some_iff.1 hhead
        exact hne s rfl rfl
      rw [tokens_sym hsym hgt]
      exact .sym
    · rename_i hsym
      have hword : isWord x = true := by
        simp [isWord, hblank x rfl, hsym]
      have hin := hc.skip isWord
      refine ⟨hin, ?_⟩
      have hslice : slice str (pos, (Cursor.skip isWord ⟨pos, x :: rest'⟩).pos) =
          (x :: rest').takeWhile isWord := by
        rw [slice, ← hc.2, Cursor.skip, Nat.add_sub_cancel_left]
        exact prefix_iff_eq_take.1 (List.takeWhile_prefix isWord) |>.symm
      have hat : WordAt str (pos, (Cursor.skip isWord ⟨pos, x :: rest'⟩).pos) := by
        refine ⟨Nat.le_add_right .., hin.1, fun y hy => ?_, fun y hy => ?_⟩
        · rw [hslice] at hy
          exact mem_takeWhile_imp hy
        · have hnot := head?_dropWhile_not isWord (x :: rest')
          rw [← hin.2, Option.mem_def] at hy
          change ((x :: rest').dropWhile isWord).head? = some y at hy
          simpa [hy] using hnot
      have htok : Reads str .word _ (_ :: tokens (rest'.dropWhile isWord)) _ := .word hat
      rw [hslice, takeWhile_cons_of_pos hword] at htok
      rw [tokens_word hword]
      simpa [Cursor.skip, hword] using htok

/-- A cursor that has skipped the white space is not on a blank. -/
theorem Cursor.skip_head (c : Cursor) : ∀ x ∈ (c.skip isBlank).rest.head?, isBlank x = false := by
  intro x hx
  have hnot := head?_dropWhile_not isBlank c.rest
  rw [Option.mem_def] at hx
  change (c.rest.dropWhile isBlank).head? = some x at hx
  simpa [hx] using hnot

/-- `gettoken` takes the first token. -/
theorem sat_gettoken (hc : c.In str) : Sat E gettoken c fun r c' => c'.In str ∧
    Reads str r.1 r.2 (tokens c.rest) (tokens c'.rest) := by
  obtain ⟨hin, hreads⟩ := scanToken_spec (hc.skip isBlank) c.skip_head
  rw [gettoken, sat_get_bind]
  refine ⟨hin.skip isBlank, ?_⟩
  rw [Cursor.tokens_skip] at hreads
  rw [Cursor.tokens_skip]
  exact hreads

/-- The first character tells with which symbol a string starts. -/
theorem head_tokens {toks : List Char} (htoks : ∀ x ∈ toks, isSymbol x = true) {x : Char}
    {s : List Char} (hx : isBlank x = false) :
    toks.contains x = (tokens (x :: s)).head?.any (Tok.startsIn toks) := by
  cases hsym : isSymbol x with
  | true =>
    rcases em (x = '>' ∧ s.head? = some '>') with hgt | hgt
    · obtain ⟨rfl, hs⟩ := hgt
      obtain ⟨s, rfl⟩ := head?_eq_some_iff.1 hs
      rw [tokens_append]
      rfl
    · rw [tokens_sym hsym fun h hs => hgt ⟨h, hs⟩]
      rfl
  | false =>
    have hword : isWord x = true := by simp [isWord, hx, hsym]
    rw [tokens_word hword]
    refine Bool.eq_false_iff.2 fun hc => ?_
    exact Bool.false_ne_true (hsym.symm.trans (htoks x (contains_iff_mem.1 hc)))

/-- `peek` looks at the first token. -/
theorem sat_peek (hc : c.In str) {toks : List Char} (htoks : ∀ x ∈ toks, isSymbol x = true) :
    Sat E (peek toks) c fun b c' => c'.In str ∧ tokens c'.rest = tokens c.rest ∧
      b = (tokens c.rest).head?.any (Tok.startsIn toks) := by
  rw [peek, sat_get_bind]
  refine ⟨hc.skip isBlank, c.tokens_skip, ?_⟩
  rw [← c.tokens_skip]
  have hhead := c.skip_head
  cases hrest : (c.skip isBlank).rest with
  | nil => rfl
  | cons x s =>
    rw [hrest] at hhead
    exact head_tokens htoks (hhead x rfl)

/-- The cursor is in the string, and these are the tokens left. -/
def Cursor.At (str : List Char) (ts : List Tok) (c : Cursor) : Prop :=
  c.In str ∧ tokens c.rest = ts

/-- The first of the tokens, if there is one, starts with one of some symbols. -/
def Follow (toks : List Char) (ts : List Tok) : Prop := ∀ t ∈ ts.head?, t.startsIn toks = true

section
variable {β : Type} {Q : β → Cursor → Prop} {ts us : List Tok} {x : Char} {toks toks' : List Char}
  {f : Kind × Nat × Nat → ShM β}

theorem sat_peek_bind {f : Bool → ShM β} (hc : c.At str ts) (htoks : toks.all isSymbol = true)
    (hf : ∀ c', c'.At str ts → Sat E (f (ts.head?.any (Tok.startsIn toks))) c' Q) :
    Sat E (peek toks >>= f) c Q := by
  refine (sat_peek hc.1 (all_eq_true.1 htoks)).bind fun b c' hb => ?_
  obtain ⟨hin, htok, rfl⟩ := hb
  rw [hc.2]
  exact hf c' ⟨hin, htok.trans hc.2⟩

theorem sat_gettoken_bind (hc : c.At str ts)
    (hf : ∀ k w us c', c'.At str us → Reads str k w ts us → Sat E (f (k, w)) c' Q) :
    Sat E (gettoken >>= f) c Q := by
  refine (sat_gettoken hc.1).bind fun r c' hr => ?_
  obtain ⟨hin, hreads⟩ := hr
  rw [hc.2] at hreads
  exact hf r.1 r.2 _ c' ⟨hin, rfl⟩ hreads

/-- Where a symbol is next, `gettoken` takes it. -/
theorem sat_gettoken_sym (hc : c.At str (.sym x :: us))
    (hf : ∀ w c', c'.At str us → Sat E (f (.sym x, w)) c' Q) : Sat E (gettoken >>= f) c Q := by
  refine sat_gettoken_bind hc fun k w vs c' hc' hreads => ?_
  cases hreads
  exact hf w c' hc'

/-- Where a word is next, `gettoken` takes it. -/
theorem sat_gettoken_word {w : List Char} (hc : c.At str (.word w :: us))
    (hf : ∀ q c', c'.At str us → slice str q = w → Sat E (f (.word, q)) c' Q) :
    Sat E (gettoken >>= f) c Q := by
  refine sat_gettoken_bind hc fun k q vs c' hc' hreads => ?_
  cases hreads
  exact hf q c' hc' rfl

theorem any_startsIn (hx : x ≠ '>') :
    ts.head?.any (Tok.startsIn [x]) = true ↔ ∃ us, ts = .sym x :: us := by
  cases ts with
  | nil => simp
  | cons t ts =>
    cases t with
    | word w | sym y => simp [Tok.startsIn]
    | append => simp [Tok.startsIn, hx.symm]

/-- A symbol that may be next: the parser takes it where it is. -/
theorem sat_optional {m : Kind × Nat × Nat → ShM β} {m' : ShM β} (hc : c.At str ts)
    (hsym : isSymbol x = true) (hx : x ≠ '>')
    (hyes : ∀ us r c', ts = .sym x :: us → c'.At str us → Sat E (m r) c' Q)
    (hno : (∀ us, ts ≠ .sym x :: us) → ∀ c', c'.At str ts → Sat E m' c' Q) :
    Sat E (peek [x] >>= fun b => if b = true then gettoken >>= m else m') c Q := by
  refine sat_peek_bind hc (by simpa using hsym) fun c' hc' => Sat.ite (fun hb => ?_) fun hb => ?_
  · obtain ⟨us, rfl⟩ := (any_startsIn hx).1 hb
    exact sat_gettoken_sym hc' fun w c'' hc'' => hyes us _ c'' rfl hc''
  · exact hno (fun us hus => hb ((any_startsIn hx).2 ⟨us, hus⟩)) c' hc'

theorem Follow.mono (h : Follow toks ts) (hsub : toks ⊆ toks') : Follow toks' ts := by
  intro t ht
  have hin := h t ht
  cases t with
  | word w => exact hin
  | sym y | append => exact contains_iff_mem.2 (hsub (contains_iff_mem.1 hin))

theorem Follow.ne_sym (h : Follow toks ts) (hx : x ∉ toks) : ts ≠ .sym x :: us := by
  rintro rfl
  exact hx (contains_iff_mem.1 (h (.sym x) rfl))

theorem follow_nil : Follow toks [] := nofun

theorem follow_sym (hx : x ∈ toks) : Follow toks (.sym x :: us) := by
  rintro t ⟨⟩
  exact contains_iff_mem.2 hx

end

end

end TronBoss.Sh
