import TronBoss.Fs.View

/-!
# Directory contents

The contents of a directory as a list of entries (`dirents`), and what storing an entry does to it.
-/

namespace TronBoss.Fs

/-- The bytes of entry `j`. -/
def direntBytes (data : List UInt8) (j : Nat) : List UInt8 :=
  (data.drop (direntSize * j)).take direntSize

/-- The entries in the contents of a directory. -/
def dirents (data : List UInt8) : List Dirent :=
  (List.range (data.length / direntSize)).map fun j => .decode (direntBytes data j)

@[simp] theorem length_dirents (data : List UInt8) :
    (dirents data).length = data.length / direntSize := by simp [dirents]

theorem getElem_dirents {data : List UInt8} {j : Nat} (h : j < (dirents data).length) :
    (dirents data)[j] = .decode (direntBytes data j) := by
  simp [dirents]

section
variable {xs ys : List UInt8} {a w : Nat}

theorem take_drop_append_left (h : a + w ≤ xs.length) :
    ((xs ++ ys).drop a).take w = (xs.drop a).take w := by
  rw [List.drop_append_of_le_length (by omega), List.take_append_of_le_length]
  rw [List.length_drop]
  omega

theorem take_drop_append_right (h : xs.length ≤ a) :
    ((xs ++ ys).drop a).take w = (ys.drop (a - xs.length)).take w := by
  rw [List.drop_append, List.drop_eq_nil_of_le h, List.nil_append]

end

section
variable {data : List UInt8} {j : Nat} {de : Dirent} (hde : de.name.length = DIRSIZ)
include hde

/-- Storing an entry changes that entry only. -/
theorem direntBytes_overlay (hj : direntSize * j ≤ data.length) (j' : Nat) :
    direntBytes (overlay data (direntSize * j) de.encode) j' =
      if j' = j then de.encode else direntBytes data j' := by
  have hlen := Dirent.length_encode hde
  have htake : (data.take (direntSize * j)).length = direntSize * j := by simp [hj]
  unfold direntBytes overlay
  split
  · rename_i heq
    rw [heq, take_drop_append_right htake.le, htake, Nat.sub_self, List.drop_zero,
      List.take_append_of_le_length hlen.ge, List.take_of_length_le hlen.le]
  · rename_i hne
    simp only [direntSize] at *
    rcases Nat.lt_or_gt_of_ne hne with hlt | hgt
    · rw [take_drop_append_left (by omega), List.drop_take, List.take_take, min_eq_left (by omega)]
    · rw [take_drop_append_right (by omega), take_drop_append_right (by omega), List.drop_drop]
      congr 2
      omega

/-- An entry stored over another one. -/
theorem dirents_set (hj : j < (dirents data).length) :
    dirents (overlay data (direntSize * j) de.encode) = (dirents data).set j de := by
  have hj' : direntSize * j + direntSize ≤ data.length := by
    rw [length_dirents] at hj
    simp only [direntSize] at hj ⊢
    omega
  have hlen : (overlay data (direntSize * j) de.encode).length = data.length := by
    rw [length_overlay (by omega), Dirent.length_encode hde]
    omega
  refine List.ext_getElem (by simp [hlen]) fun j' h1 h2 => ?_
  rw [getElem_dirents, direntBytes_overlay hde (by omega), List.getElem_set]
  split
  · rename_i heq
    rw [if_pos heq.symm, Dirent.decode_encode hde]
  · rename_i hne
    rw [if_neg fun heq => hne heq.symm, getElem_dirents]

/-- An entry stored at the end. -/
theorem dirents_append (hdvd : direntSize ∣ data.length) :
    dirents (overlay data data.length de.encode) = dirents data ++ [de] := by
  obtain ⟨n, hn⟩ := hdvd
  have hcount : (dirents data).length = n := by
    rw [length_dirents, hn, Nat.mul_div_cancel_left _ (by decide)]
  have hlen : (overlay data data.length de.encode).length = direntSize * (n + 1) := by
    rw [length_overlay le_rfl, Dirent.length_encode hde, Nat.max_eq_right (by omega), hn]
    rfl
  refine List.ext_getElem ?_ fun j' h1 h2 => ?_
  · rw [length_dirents, hlen, Nat.mul_div_cancel_left _ (by decide), List.length_append, hcount]
    rfl
  · rw [getElem_dirents, hn, direntBytes_overlay hde hn.ge, List.getElem_append]
    split
    · rw [dif_neg (by omega), Dirent.decode_encode hde]
      simp
    · rw [List.length_append, hcount, List.length_singleton] at h2
      rw [dif_pos (by omega), getElem_dirents]

end

end TronBoss.Fs
