import Mathlib.Computability.Language

/-!
# The patterns of grep

`match`, `matchhere` and `matchstar` of `grep.c`. A C string is the list of the characters before
its NUL, so `*text == '\0'` is the empty list. `Pattern.read` reads a pattern from left to right into
the pieces it is made of, each with a language, and `reMatch` looks for a substring in the product of
these languages, with the ends that the anchors leave open.
-/

namespace TronBoss.Grep

/-! ## The matcher -/

/-- `matchstar`, where `here` is `matchhere` with the rest of the pattern. -/
def matchstar (here : List Char → Bool) (c : Char) : List Char → Bool
  | [] => here []
  | x :: text => here (x :: text) || ((x == c || c == '.') && matchstar here c text)

def matchhere : List Char → List Char → Bool
  | [], _ => true
  | c :: '*' :: re, text => matchstar (matchhere re) c text
  | ['$'], text => text.isEmpty
  | _ :: _, [] => false
  | c :: re, x :: text => (c == '.' || c == x) && matchhere re text

/-- The loop of `match`. -/
def matchLoop (re : List Char) : List Char → Bool
  | [] => matchhere re []
  | x :: text => matchhere re (x :: text) || matchLoop re text

def reMatch : List Char → List Char → Bool
  | '^' :: re, text => matchhere re text
  | re, text => matchLoop re text

/-! ## What a pattern means -/

/-- A character of a pattern and one of the text: `'.'` is any character. -/
def Stands (c x : Char) : Prop := c = '.' ∨ c = x

/-- A piece of a pattern: a character, or a character with `'*'` behind it. -/
inductive Piece where
  | one (c : Char)
  | star (c : Char)
  deriving DecidableEq

/-- The strings that a piece stands for. -/
def Piece.lang : Piece → Language Char
  | .one c => {w | ∃ x, Stands c x ∧ w = [x]}
  | .star c => {w | ∀ x ∈ w, Stands c x}

/-- A pattern: its pieces, and whether it is tied to the start and to the end of the text. -/
structure Pattern where
  first : Bool
  pieces : List Piece
  last : Bool
  deriving DecidableEq

/-- The pieces of a pattern, and whether a `'$'` is its last character. -/
def readPieces : List Char → List Piece × Bool
  | [] => ([], false)
  | c :: '*' :: re => (.star c :: (readPieces re).1, (readPieces re).2)
  | ['$'] => ([], true)
  | c :: re => (.one c :: (readPieces re).1, (readPieces re).2)

/-- A pattern as it is written. -/
def Pattern.read : List Char → Pattern
  | '^' :: re => ⟨true, (readPieces re).1, (readPieces re).2⟩
  | re => ⟨false, (readPieces re).1, (readPieces re).2⟩

/-- The text has a substring in the language of the pattern. -/
def Pattern.Accepts (p : Pattern) (text : List Char) : Prop :=
  ∃ u w v, text = u ++ w ++ v ∧ w ∈ (p.pieces.map Piece.lang).prod ∧
    (p.first → u = []) ∧ (p.last → v = [])

/-! ## The matcher finds what the pattern means -/

/-- The text starts with a string of the pieces, and is at its end then if it has to be. -/
def Starts (x : List Piece × Bool) (text : List Char) : Prop :=
  ∃ w v, text = w ++ v ∧ w ∈ (x.1.map Piece.lang).prod ∧ (x.2 → v = [])

section
variable {c x : Char} {l : List Piece} {e : Bool} {text : List Char}

theorem stands_iff : (c == '.' || c == x) = true ↔ Stands c x := by
  rw [Bool.or_eq_true, beq_iff_eq, beq_iff_eq, Stands]

theorem starts_nil : Starts ([], e) text ↔ (e → text = []) := by
  constructor
  · rintro ⟨w, v, rfl, hw, hv⟩ he
    rw [List.map_nil, List.prod_nil, Language.mem_one] at hw
    rw [hw, hv he, List.append_nil]
  · exact fun h => ⟨[], text, rfl, Language.nil_mem_one, h⟩

theorem not_starts_one_nil : ¬ Starts (.one c :: l, e) [] := by
  rintro ⟨w, v, hwv, hw, -⟩
  rw [List.map_cons, List.prod_cons, Language.mem_mul] at hw
  obtain ⟨_, ⟨x, -, rfl⟩, b, -, rfl⟩ := hw
  cases hwv

theorem starts_one : Starts (.one c :: l, e) (x :: text) ↔ Stands c x ∧ Starts (l, e) text := by
  simp only [Starts, List.map_cons, List.prod_cons, Language.mem_mul]
  constructor
  · rintro ⟨_, v, hwv, ⟨_, ⟨x, hx, rfl⟩, b, hb, rfl⟩, hv⟩
    cases hwv
    exact ⟨hx, b, v, rfl, hb, hv⟩
  · rintro ⟨hx, b, v, rfl, hb, hv⟩
    exact ⟨x :: b, v, rfl, ⟨[x], ⟨x, hx, rfl⟩, b, hb, rfl⟩, hv⟩

/-- A repetition stands for some characters of the text, and the rest starts behind them. -/
theorem starts_star : Starts (.star c :: l, e) text ↔
    ∃ w v, text = w ++ v ∧ (∀ x ∈ w, Stands c x) ∧ Starts (l, e) v := by
  simp only [Starts, List.map_cons, List.prod_cons, Language.mem_mul]
  constructor
  · rintro ⟨_, v, rfl, ⟨a, ha, b, hb, rfl⟩, hv⟩
    exact ⟨a, b ++ v, List.append_assoc .., ha, b, v, rfl, hb, hv⟩
  · rintro ⟨a, _, rfl, ha, b, v, rfl, hb, hv⟩
    exact ⟨a ++ b, v, (List.append_assoc ..).symm, ⟨a, ha, b, hb, rfl⟩, hv⟩

/-- The loop of `matchstar` tries every number of repetitions. -/
theorem matchstar_iff {here : List Char → Bool} : matchstar here c text = true ↔
    ∃ w v, text = w ++ v ∧ (∀ x ∈ w, Stands c x) ∧ here v = true := by
  induction text with
  | nil =>
    rw [matchstar]
    constructor
    · exact fun h => ⟨[], [], rfl, nofun, h⟩
    · rintro ⟨w, v, hwv, -, h⟩
      rw [(List.append_eq_nil_iff.1 hwv.symm).2] at h
      exact h
  | cons x text ih =>
    rw [matchstar, Bool.or_eq_true, Bool.and_eq_true, Bool.or_comm, BEq.comm (a := x), stands_iff,
      ih]
    constructor
    · rintro (h | ⟨hx, w, v, rfl, hw, h⟩)
      · exact ⟨[], x :: text, rfl, nofun, h⟩
      · exact ⟨x :: w, v, rfl, List.forall_mem_cons.2 ⟨hx, hw⟩, h⟩
    · rintro ⟨w, v, hwv, hw, h⟩
      cases w with
      | nil => exact .inl (hwv ▸ h)
      | cons y w =>
        cases hwv
        obtain ⟨hx, hw⟩ := List.forall_mem_cons.1 hw
        exact .inr ⟨hx, w, v, rfl, hw, h⟩

end

/-- `matchhere` compares the pattern with the text from its first character on. -/
theorem matchhere_iff (re text : List Char) :
    matchhere re text = true ↔ Starts (readPieces re) text := by
  induction re using readPieces.induct generalizing text with
  | case1 | case3 => simp [matchhere, readPieces, starts_nil]
  | case2 c re ih =>
    rw [matchhere, readPieces, starts_star, matchstar_iff]
    simp only [ih]
  | case4 c re hstar hlast ih =>
    rw [readPieces.eq_4 c re hstar hlast]
    cases text with
    | nil =>
      rw [matchhere.eq_4 c re hstar hlast]
      exact iff_of_false nofun not_starts_one_nil
    | cons x text =>
      rw [matchhere.eq_5 c re x text hstar hlast, starts_one, Bool.and_eq_true, stands_iff, ih]

/-- The loop of `match` tries every place of the text. -/
theorem matchLoop_iff {re text : List Char} :
    matchLoop re text = true ↔ ∃ u v, text = u ++ v ∧ matchhere re v = true := by
  induction text with
  | nil =>
    rw [matchLoop]
    constructor
    · exact fun h => ⟨[], [], rfl, h⟩
    · rintro ⟨u, v, huv, h⟩
      rw [(List.append_eq_nil_iff.1 huv.symm).2] at h
      exact h
  | cons x text ih =>
    rw [matchLoop, Bool.or_eq_true, ih]
    constructor
    · rintro (h | ⟨u, v, rfl, h⟩)
      · exact ⟨[], x :: text, rfl, h⟩
      · exact ⟨x :: u, v, rfl, h⟩
    · rintro ⟨u, v, huv, h⟩
      cases u with
      | nil => exact .inl (huv ▸ h)
      | cons y u =>
        cases huv
        exact .inr ⟨u, v, rfl, h⟩

/-- `match` returns, and it returns 1 if and only if the text has a substring in the language of the
pattern. -/
theorem reMatch_iff (re text : List Char) :
    reMatch re text = true ↔ (Pattern.read re).Accepts text := by
  by_cases hre : ∃ re', re = '^' :: re'
  · obtain ⟨re, rfl⟩ := hre
    rw [reMatch, Pattern.read, matchhere_iff]
    constructor
    · rintro ⟨w, v, rfl, hw, hv⟩
      exact ⟨[], w, v, rfl, hw, fun _ => rfl, hv⟩
    · rintro ⟨u, w, v, rfl, hw, hu, hv⟩
      rw [hu rfl]
      exact ⟨w, v, rfl, hw, hv⟩
  · have hre' : ∀ re', re = '^' :: re' → False := fun re' e => hre ⟨re', e⟩
    rw [reMatch.eq_2 re text hre', Pattern.read.eq_2 re hre', matchLoop_iff]
    constructor
    · rintro ⟨u, _, rfl, h⟩
      obtain ⟨w, v, rfl, hw, hv⟩ := (matchhere_iff ..).1 h
      exact ⟨u, w, v, (List.append_assoc ..).symm, hw, nofun, hv⟩
    · rintro ⟨u, w, v, rfl, hw, -, hv⟩
      exact ⟨u, w ++ v, List.append_assoc .., (matchhere_iff ..).2 ⟨w, v, rfl, hw, hv⟩⟩

end TronBoss.Grep
