import TronBoss.Log.Bio

/-!
# The cache as a store of blocks

`Bcache.Rep c view X`: the cache and the disk under it together store the contents `view`, apart
from the buffers in `X`, whose holders have changed them. A block is read from its buffer if it has
one, and otherwise from the disk; only a dirty buffer may differ from the disk, and `bget` never
recycles one. Each routine of `bio.c` gets one lemma about this relation and about the set of dirty
blocks.
-/

namespace TronBoss

open Lib Function

section
variable {H : Type} {c c' : Bcache H} {view : UInt32 → Block} {X X' : Fin NBUF → Prop}
  {b b' : Fin NBUF} {n : UInt32} {who : H} {x : Buf H}

/-- The block has a dirty buffer. -/
def Bcache.Dirty (c : Bcache H) (n : UInt32) : Prop :=
  ∃ b, (c.buf b).blockno = some n ∧ (c.buf b).dirty = true

/-- The cache stores the contents `view`, apart from what the holders of the buffers in `X` have
changed. -/
structure Bcache.Rep (c : Bcache H) (view : UInt32 → Block) (X : Fin NBUF → Prop) : Prop where
  order : ∀ b, b ∈ c.order
  uniq : ∀ b b' n, (c.buf b).blockno = some n → (c.buf b').blockno = some n → b = b'
  data : ∀ b n, (c.buf b).blockno = some n → (c.buf b).valid = true → ¬ X b →
    (c.buf b).data = view n
  dirty : ∀ b, (c.buf b).dirty = true → (c.buf b).valid = true ∧ (c.buf b).blockno ≠ none
  clean : ∀ n, ¬ c.Dirty n → c.disk n = view n
  held : ∀ b, X b → (c.buf b).busy ≠ none

@[simp] theorem Bcache.setBuf_disk : (c.setBuf b x).disk = c.disk := rfl

@[simp] theorem Bcache.setBuf_self : (c.setBuf b x).buf b = x :=
  update_self ..

theorem Bcache.setBuf_of_ne (h : b' ≠ b) : (c.setBuf b x).buf b' = c.buf b' :=
  update_of_ne h ..

/-- A change of one buffer that keeps its block number and the flags `B_BUSY` and `B_VALID`. -/
theorem Bcache.setBuf_fields (h1 : x.busy = (c.buf b).busy)
    (h2 : x.valid = (c.buf b).valid) (h3 : x.blockno = (c.buf b).blockno) (b' : Fin NBUF) :
    ((c.setBuf b x).buf b').busy = (c.buf b').busy ∧
    ((c.setBuf b x).buf b').valid = (c.buf b').valid ∧
    ((c.setBuf b x).buf b').blockno = (c.buf b').blockno := by
  by_cases e : b' = b
  · rw [e, setBuf_self]
    exact ⟨h1, h2, h3⟩
  · rw [setBuf_of_ne e]
    exact ⟨rfl, rfl, rfl⟩

/-- The cache of a machine that has just started. -/
theorem binit_rep (d : Disk) : (binit d : Bcache H).Rep d fun _ => False where
  order b := by simp [binit]
  uniq _ _ _ h := nomatch h
  data _ _ h := nomatch h
  dirty _ h := nomatch h
  clean _ _ := rfl
  held _ h := h.elim

theorem not_dirty_binit (d : Disk) (n : UInt32) : ¬ (binit d : Bcache H).Dirty n := by
  rintro ⟨b, h, -⟩
  cases h

/-- The dirty blocks after a change of one buffer. -/
theorem Bcache.dirty_setBuf
    (hx : x.blockno = some n ∧ x.dirty = true ↔ (c.buf b).blockno = some n ∧ (c.buf b).dirty = true) :
    (c.setBuf b x).Dirty n ↔ c.Dirty n := by
  refine exists_congr fun b' => ?_
  by_cases e : b' = b
  · rw [e, setBuf_self, hx]
  · rw [setBuf_of_ne e]

/-- A change of one buffer and of the disk. -/
theorem Bcache.Rep.replace {disk' : Disk} {view' : UInt32 → Block}
    (h : c.Rep view X) (huniq : ∀ m b', x.blockno = some m → (c.buf b').blockno = some m → b' = b)
    (hdata : ∀ m, x.blockno = some m → x.valid = true → ¬ X' b → x.data = view' m)
    (hother : ∀ b' m, b' ≠ b → (c.buf b').blockno = some m → view' m = view m)
    (hX : ∀ b', b' ≠ b → (X' b' ↔ X b'))
    (hdirty : x.dirty = true → x.valid = true ∧ x.blockno ≠ none)
    (hclean : ∀ m, ¬ (c.setBuf b x).Dirty m → disk' m = view' m)
    (hheld : X' b → x.busy ≠ none) :
    Bcache.Rep { c.setBuf b x with disk := disk' } view' X' := by
  refine ⟨h.order, fun b1 b2 m h1 h2 => ?_, fun b' m hm hv hX' => ?_, fun b' hd => ?_, hclean,
    fun b' hX' => ?_⟩
  · simp only [setBuf] at h1 h2
    by_cases e1 : b1 = b <;> by_cases e2 : b2 = b
    · rw [e1, e2]
    · rw [e1, update_self] at h1
      rw [update_of_ne e2] at h2
      exact absurd (huniq m b2 h1 h2) e2
    · rw [e2, update_self] at h2
      rw [update_of_ne e1] at h1
      exact absurd (huniq m b1 h2 h1) e1
    · rw [update_of_ne e1] at h1
      rw [update_of_ne e2] at h2
      exact h.uniq b1 b2 m h1 h2
  · simp only [setBuf] at hm hv ⊢
    by_cases e : b' = b
    · subst e
      rw [update_self] at hm hv ⊢
      exact hdata m hm hv hX'
    · rw [update_of_ne e] at hm hv ⊢
      rw [hother b' m e hm]
      exact h.data b' m hm hv ((hX b' e).not.1 hX')
  · simp only [setBuf] at hd ⊢
    by_cases e : b' = b
    · subst e
      rw [update_self] at hd ⊢
      exact hdirty hd
    · rw [update_of_ne e] at hd ⊢
      exact h.dirty b' hd
  · simp only [setBuf]
    by_cases e : b' = b
    · subst e
      rw [update_self]
      exact hheld hX'
    · rw [update_of_ne e]
      exact h.held b' ((hX b' e).1 hX')

/-- A change of one buffer that keeps its block and its flags. -/
theorem Bcache.Rep.setBuf (h : c.Rep view X)
    (hb : x.blockno = (c.buf b).blockno) (hv : x.valid = (c.buf b).valid)
    (hd : x.dirty = (c.buf b).dirty) (hdata : ¬ X' b → ¬ X b ∧ x.data = (c.buf b).data)
    (hX : ∀ b', b' ≠ b → (X' b' ↔ X b')) (hheld : X' b → x.busy ≠ none) :
    (c.setBuf b x).Rep view X' := by
  refine h.replace (fun m b' hm hm' => h.uniq b' b m hm' (hb ▸ hm)) (fun m hm hv' hX' => ?_)
    (fun _ _ _ _ => rfl) hX (fun hd' => ?_) (fun m hm => ?_) hheld
  · rw [(hdata hX').2]
    exact h.data b m (hb ▸ hm) (hv ▸ hv') (hdata hX').1
  · rw [hv, hb]
    exact h.dirty b (hd ▸ hd')
  · rw [dirty_setBuf (by rw [hb, hd])] at hm
    exact h.clean m hm

/-- The holder of a buffer changes its contents. -/
theorem Bcache.Rep.setData {d : Block} (h : c.Rep view X) (hb : (c.buf b).busy ≠ none) :
    (c.setBuf b { c.buf b with data := d }).Rep view fun b' => X b' ∨ b' = b :=
  h.setBuf rfl rfl rfl (fun hX => absurd (.inr rfl) hX) (fun b' e => by simp [e]) fun _ => hb

/-- The dirty blocks when a buffer is marked. -/
theorem Bcache.dirty_setDirty (hn : (c.buf b).blockno = some n) (m : UInt32) :
    (c.setBuf b { c.buf b with dirty := true }).Dirty m ↔ c.Dirty m ∨ m = n := by
  constructor
  · rintro ⟨b', hb', hd'⟩
    by_cases e : b' = b
    · rw [e, setBuf_self, hn, Option.some_inj] at hb'
      exact .inr hb'.symm
    · rw [setBuf_of_ne e] at hb' hd'
      exact .inl ⟨b', hb', hd'⟩
  · rintro (⟨b', hb', hd'⟩ | rfl)
    · by_cases e : b' = b
      · exact ⟨b, by rwa [setBuf_self, ← e], by rw [setBuf_self]⟩
      · exact ⟨b', by rwa [setBuf_of_ne e], by rwa [setBuf_of_ne e]⟩
    · exact ⟨b, by rwa [setBuf_self], by rw [setBuf_self]⟩

/-- A buffer that its holder has changed is marked dirty. -/
theorem Bcache.Rep.setDirty (h : c.Rep view X)
    (hn : (c.buf b).blockno = some n) (hv : (c.buf b).valid = true) (hb : (c.buf b).busy ≠ none)
    (hX : ∀ b', b' ≠ b → (X' b' ↔ X b')) :
    (c.setBuf b { c.buf b with dirty := true }).Rep (update view n (c.buf b).data) X' := by
  refine h.replace (fun m b' hm hm' => h.uniq b' b m hm' hm) (fun m hm _ _ => ?_)
    (fun b' m e hm => ?_) hX (fun _ => ⟨hv, by simp [hn]⟩) (fun m hm => ?_) fun _ => hb
  · obtain rfl : m = n := Option.some_inj.1 (hm.symm.trans hn)
    rw [update_self]
  · refine update_of_ne ?_ _ _
    rintro rfl
    exact e (h.uniq b' b m hm hn)
  · rw [dirty_setDirty hn, not_or] at hm
    rw [update_of_ne hm.2]
    exact h.clean m hm.1

/-! ## `bread` -/

/-- What `bget` and `bread` do: the buffer `b` of the block `n`, which nobody held, is taken, and
nothing else changes. -/
structure Taken (who : H) (n : UInt32) (c : Bcache H) (b : Fin NBUF) (c' : Bcache H) : Prop where
  disk : c'.disk = c.disk
  free : (c.buf b).busy = none
  blockno : (c'.buf b).blockno = some n
  busy : (c'.buf b).busy = some who
  other : ∀ b', b' ≠ b → c'.buf b' = c.buf b'
  dirty : ∀ m, c'.Dirty m ↔ c.Dirty m

/-- A buffer that was held before is not the one that is taken. -/
theorem Taken.ne {w : H} (h : Taken who n c b c') (hb : (c.buf b').busy = some w) : b' ≠ b := by
  rintro rfl
  rw [h.free] at hb
  cases hb

theorem Taken.same {w : H} (h : Taken who n c b c')
    (hb : (c.buf b').busy = some w) : c'.buf b' = c.buf b' := h.other b' (h.ne hb)

/-- `bget` takes a buffer for the block and loses no contents. -/
theorem bget_spec (h : c.Rep view X) (hb : bget who n c = .ok (b, c')) :
    Taken who n c b c' ∧ c'.Rep view X := by
  unfold bget at hb
  split at hb
  · -- the block is cached
    next b0 hf =>
    have hn : (c.buf b0).blockno = some n := by simpa using List.find?_some hf
    split at hb
    · next hfree =>
      cases hb
      exact ⟨⟨rfl, by simpa using hfree, by simpa using hn, by simp,
        fun b' e => Bcache.setBuf_of_ne e, fun m => Bcache.dirty_setBuf Iff.rfl⟩,
        h.setBuf rfl rfl rfl (fun hX => ⟨hX, rfl⟩) (fun _ _ => Iff.rfl) (by simp)⟩
    · cases hb
  · next hf =>
    split at hb
    · -- a clean buffer is recycled; its old block then has no buffer
      next b0 hf' =>
      have hcl : (c.buf b0).busy = none ∧ (c.buf b0).dirty = false := by
        simpa using List.find?_some hf'
      have hno : ∀ b', (c.buf b').blockno ≠ some n := by
        intro b'
        simpa using List.find?_eq_none.1 hf b' (h.order b')
      cases hb
      have hdirty : ∀ m, (c.setBuf b { c.buf b with
          blockno := some n, busy := some who, valid := false, dirty := false }).Dirty m ↔
          c.Dirty m := fun m => Bcache.dirty_setBuf (by simp [hcl.2])
      refine ⟨⟨rfl, hcl.1, by simp, by simp, fun b' e => Bcache.setBuf_of_ne e, hdirty⟩,
        h.replace (fun m b' hm hm' => ?_) (fun _ _ hv => nomatch hv) (fun _ _ _ _ => rfl)
          (fun _ _ => Iff.rfl) nofun (fun m hm => h.clean m ((hdirty m).not.1 hm)) (by simp)⟩
      cases hm
      exact absurd hm' (hno b')
    · cases hb

/-- `iderw` on a buffer that is not valid reads the block. -/
theorem iderw_read_spec (h : c.Rep view X) (hn : (c.buf b).blockno = some n)
    (hv : (c.buf b).valid = false) (hX : ¬ X b) (hc : iderw b c = .ok c') :
    c' = c.setBuf b { c.buf b with valid := true, data := c.disk n } ∧ c'.Rep view X := by
  have hd : (c.buf b).dirty = false := by
    cases hd : (c.buf b).dirty with
    | false => rfl
    | true =>
      rw [(h.dirty b hd).1] at hv
      cases hv
  have hview : c.disk n = view n := by
    refine h.clean n ?_
    rintro ⟨b', hb', hd'⟩
    rw [h.uniq b' b n hb' hn, hd] at hd'
    cases hd'
  simp only [iderwBy, hn, hv, hd, bind_eq_ok, panicIf_eq_ok] at hc
  obtain ⟨_, -, _, -, _, -, hc⟩ := hc
  cases hc
  refine ⟨by simp only [hn, hd], h.replace (fun m b' hm hm' => ?_) (fun m hm _ _ => ?_)
    (fun _ _ _ _ => rfl) (fun _ _ => Iff.rfl) (fun hd => absurd hd Bool.false_ne_true)
    (fun m hm => h.clean m ?_) fun hX' => absurd hX' hX⟩
  · exact h.uniq b' b m hm' (hn.trans hm)
  · cases hm
    exact hview
  · rwa [Bcache.dirty_setBuf (by simp [hd])] at hm

/-- `bread` takes the buffer of the block, which then holds the contents of the block. -/
theorem bread_spec (h : c.Rep view X) (hb : bread who n c = .ok (b, c')) :
    Taken who n c b c' ∧ c'.Rep view X ∧ (c'.buf b).valid = true ∧
      (c'.buf b).data = view n := by
  obtain ⟨⟨b0, c1⟩, hget, hb⟩ := bind_eq_ok.1 hb
  obtain ⟨ht, hrep⟩ := bget_spec h hget
  have hX : ¬ X b0 := fun hX => h.held b0 hX ht.free
  dsimp only at hb
  split at hb
  · next hv =>
    cases hb
    exact ⟨ht, hrep, hv, hrep.data b n ht.blockno hv hX⟩
  · next hv =>
    obtain ⟨c2, hide, hb⟩ := bind_eq_ok.1 hb
    cases hb
    obtain ⟨rfl, hrep'⟩ := iderw_read_spec hrep ht.blockno (by simpa using hv) hX hide
    have hblk : ((c1.setBuf b { c1.buf b with valid := true, data := c1.disk n }).buf b).blockno =
        some n := by rw [Bcache.setBuf_self, ht.blockno]
    refine ⟨⟨ht.disk, ht.free, hblk, ?_, fun b' e => ?_, fun m => ?_⟩, hrep', ?_, ?_⟩
    · rw [Bcache.setBuf_self, ht.busy]
    · rw [Bcache.setBuf_of_ne e, ht.other b' e]
    · refine Iff.trans (Bcache.dirty_setBuf ?_) (ht.dirty m)
      rfl
    · rw [Bcache.setBuf_self]
    · exact hrep'.data b n hblk (by rw [Bcache.setBuf_self]) hX

/-! ## `bwrite` and `brelse` -/

/-- `bwrite` of a buffer whose holder has changed it: the new contents go to the disk. -/
theorem bwrite_spec (h : c.Rep view fun b' => X b' ∨ b' = b) (hX : ¬ X b)
    (hn : (c.buf b).blockno = some n) (hc : bwrite b c = .ok c') :
    c' = { c.setBuf b { c.buf b with valid := true, dirty := false } with
        disk := update c.disk n (c.buf b).data } ∧
      c'.Rep (update view n (c.buf b).data) X ∧
      ∀ m, c'.Dirty m ↔ c.Dirty m ∧ m ≠ n := by
  simp only [bwrite, bwriteBy, iderwBy, bind_eq_ok, panicIf_eq_ok, Bcache.setBuf_self, hn] at hc
  obtain ⟨_, -, _, -, _, -, _, -, hc⟩ := hc
  have hc' : c' = { c.setBuf b { c.buf b with valid := true, dirty := false } with
      disk := update c.disk n (c.buf b).data } := by
    rw [if_pos trivial] at hc
    cases hc
    simp only [Bcache.setBuf, update_idem, hn]
  have hdirty : ∀ m, (c.setBuf b { c.buf b with valid := true, dirty := false }).Dirty m ↔
      c.Dirty m ∧ m ≠ n := by
    intro m
    constructor
    · rintro ⟨b', hb', hd'⟩
      by_cases e : b' = b
      · simp [e] at hd'
      · rw [Bcache.setBuf_of_ne e] at hb' hd'
        refine ⟨⟨b', hb', hd'⟩, ?_⟩
        rintro rfl
        exact e (h.uniq b' b m hb' hn)
    · rintro ⟨⟨b', hb', hd'⟩, hne⟩
      have e : b' ≠ b := by
        rintro rfl
        rw [hn, Option.some_inj] at hb'
        exact hne hb'.symm
      exact ⟨b', by rwa [Bcache.setBuf_of_ne e], by rwa [Bcache.setBuf_of_ne e]⟩
  refine ⟨hc', ?_, fun m => by rw [hc']; exact hdirty m⟩
  rw [hc']
  refine h.replace (fun m b' hm hm' => h.uniq b' b m hm' hm) (fun m hm _ _ => ?_)
    (fun b' m e hm => ?_) (fun b' e => by simp [e])
    (fun hd => absurd hd Bool.false_ne_true) (fun m hm => ?_) fun hX' => absurd hX' hX
  · have hm' : m = n := Option.some_inj.1 (hm.symm.trans hn)
    rw [hm', update_self]
  · refine update_of_ne ?_ _ _
    rintro rfl
    exact e (h.uniq b' b m hm hn)
  · by_cases e : m = n
    · rw [e, update_self, update_self]
    · rw [update_of_ne e, update_of_ne e]
      exact h.clean m fun hd => hm ((hdirty m).2 ⟨hd, e⟩)

/-- `brelse` gives a buffer back that has no change left to log. -/
theorem brelse_spec (h : c.Rep view X) (hX : ¬ X b) (hc : brelse b c = .ok c') :
    c'.disk = c.disk ∧ c'.buf = (c.setBuf b { c.buf b with busy := none }).buf ∧ c'.Rep view X ∧
      ∀ m, c'.Dirty m ↔ c.Dirty m := by
  simp only [brelse, bind_eq_ok, panicIf_eq_ok] at hc
  obtain ⟨_, -, hc⟩ := hc
  cases hc
  have hrep : (c.setBuf b { c.buf b with busy := none }).Rep view X :=
    h.setBuf rfl rfl rfl (fun hX => ⟨hX, rfl⟩) (fun _ _ => Iff.rfl) fun hX' => absurd hX' hX
  refine ⟨rfl, rfl, ⟨fun b' => ?_, hrep.uniq, hrep.data, hrep.dirty, hrep.clean, hrep.held⟩,
    fun m => Bcache.dirty_setBuf Iff.rfl⟩
  by_cases e : b' = b
  · simp [e]
  · exact List.mem_cons_of_mem _ ((List.mem_erase_of_ne e).2 (h.order b'))

end

end TronBoss
