import TronBoss.Txn.RefCount

/-!
# Reads of files without holes

A read finds each block it needs in the inode or in the indirect block when the file has no holes,
and then it changes nothing. With that every file-system call is balanced: the main result of this
part.
-/

namespace TronBoss.Txn

open Lib Fs

/-- Each block of the file, up to its size, has an address. -/
def Mapped (disk : Nat → Block) (d : Dinode) : Prop :=
  ∀ bn < MAXFILE, bn * BSIZE < d.size.toNat →
    if bn < NDIRECT then d.addrs (Fin.ofNat (NDIRECT + 1) bn) ≠ 0
    else d.addrs (Fin.last NDIRECT) ≠ 0 ∧
      (disk (d.addrs (Fin.last NDIRECT)).toNat).read32 (4 * (bn - NDIRECT)) ≠ 0

/-- The inode as `ilock` finds it: in the cache entry, or on disk. -/
def current (s : Fs.State) (e : Fin NINODE) : Dinode :=
  if (s.icache e).valid then (s.icache e).toDinode
  else dinodeAt (s.disk (IBLOCK (s.icache e).inum s.sb)) (s.icache e).inum

/-- No inode that is in use has a hole. -/
def HoleFree (s : Fs.State) : Prop :=
  ∀ e, 0 < (s.icache e).ref → Mapped s.disk (current s e)

instance (disk : Nat → Block) (d : Dinode) : Decidable (Mapped disk d) :=
  inferInstanceAs (Decidable (∀ bn < MAXFILE, _ → _))

instance (s : Fs.State) : Decidable (HoleFree s) := inferInstanceAs (Decidable (∀ _, _ → _))

section
variable {E : Stop → Prop} {s : Sys} {e : Fin NINODE}

/-! ## Reads that change nothing -/

theorem sat_fsState_bind {α : Type} {f : Fs.State → TxM α} {Q : α → Sys → Prop} :
    Sat E (fsState >>= f) s Q ↔ Sat E (f s.fs) s Q := Iff.rfl

theorem sat_modifyInode_bind {α : Type} {f : Inode → Inode} {g : Unit → TxM α} {Q : α → Sys → Prop} :
    Sat E (modifyInode e f >>= g) s Q ↔
      Sat E (g ()) { s with fs := s.fs.setInode e (f (s.fs.icache e)) } Q := Iff.rfl

theorem sat_bread {n : Nat} (hE : E .diverge) (hE' : E (.panic "incorrect blockno")) :
    Sat E (bread n) s fun c s' => c = s.fs.disk n ∧ s' = { s with bufs := n :: s.bufs } := by
  refine sat_get_bind.2 (.ite (fun _ => hE) fun _ => sat_bind.2 (sat_zoom.2 ?_))
  exact sat_panicIf_bind.2 ⟨fun _ => hE', fun _ => ⟨rfl, rfl⟩⟩

theorem sat_brelse {n : Nat} {B : List Nat} (h : s.bufs = n :: B) :
    Sat E (brelse n) s fun _ s' => s' = { s with bufs := B } := by
  refine sat_get_bind.2 (sat_panicIf_bind.2 ⟨fun hn => ?_, fun _ => ?_⟩)
  · exact absurd (h ▸ List.mem_cons_self) hn
  · simp [h]

end

section
variable {s : Sys} {e : Fin NINODE} {w : Bool}

theorem sat_bread_allowed {n : Nat} :
    Sat (Allowed w) (bread n) s fun c s' =>
      c = s.fs.disk n ∧ s' = { s with bufs := n :: s.bufs } :=
  sat_bread allowed_diverge (allowed_panic (by decide))

theorem sat_bmapAddr {k : Fin (NDIRECT + 1)} (h : (s.fs.icache e).addrs k ≠ 0) :
    Sat (Allowed w) (bmapAddr e k) s fun b s' =>
      b = ((s.fs.icache e).addrs k).toNat ∧ s' = s :=
  sat_get_bind.2 (.ite (fun h0 => absurd h0 h) fun _ => ⟨rfl, rfl⟩)

/-- `bmap` of a mapped indirect block changes nothing. -/
theorem sat_bmapIndirect {bn : Nat} (h : (s.fs.icache e).addrs (Fin.last NDIRECT) ≠ 0)
    (h' : (s.fs.disk ((s.fs.icache e).addrs (Fin.last NDIRECT)).toNat).read32 (4 * bn) ≠ 0) :
    Sat (Allowed w) (bmapIndirect e bn) s fun _ s' => s' = s := by
  refine (sat_bmapAddr h).bind fun addr s1 h1 => ?_
  obtain ⟨rfl, rfl⟩ := h1
  refine sat_bread_allowed.bind fun c s2 h2 => ?_
  obtain ⟨rfl, rfl⟩ := h2
  refine .ite (fun h0 => absurd h0 h') fun _ => (sat_brelse rfl).bind fun _ s3 h3 => h3

/-- A block of a file without holes is looked up without an allocation. -/
theorem sat_bmap {bn : Nat} (hm : Mapped s.fs.disk (s.fs.icache e).toDinode)
    (hbn : bn * BSIZE < (s.fs.icache e).size.toNat) :
    Sat (Allowed w) (bmap e bn) s fun _ s' => s' = s := by
  refine .ite (fun hd => ?_) fun hd => .ite (fun hi => ?_) fun _ => ?_
  · have hlt : bn < MAXFILE := Nat.lt_of_lt_of_le hd (Nat.le_add_right _ _)
    have h := hm bn hlt hbn
    rw [if_pos hd] at h
    exact (sat_bmapAddr h).weaken fun _ _ h' => h'.2
  · have hlt : bn < MAXFILE := by unfold MAXFILE; omega
    have h := hm bn hlt hbn
    rw [if_neg hd] at h
    exact sat_bmapIndirect h.1 h.2
  · exact allowed_panic (by decide)

/-- Reading below the size allocates nothing: each block is mapped. -/
theorem sat_readiLoop (hm : Mapped s.fs.disk (s.fs.icache e).toDinode) (k off n : Nat)
    (hn : off + n ≤ (s.fs.icache e).size.toNat) :
    Sat (Allowed w) (readiLoop e k off n) s fun _ s' => s' = s := by
  induction k generalizing off n with
  | zero =>
    cases n with
    | zero => exact rfl
    | succ n => exact allowed_diverge
  | succ k ih =>
    cases n with
    | zero => exact rfl
    | succ n =>
      have hoff : off / BSIZE * BSIZE < (s.fs.icache e).size.toNat := by
        have := Nat.div_mul_le_self off BSIZE
        omega
      refine (sat_bmap hm hoff).bind fun c s1 h1 => ?_
      subst h1
      refine sat_bread_allowed.bind fun bp s2 h2 => ?_
      obtain ⟨rfl, rfl⟩ := h2
      refine (sat_brelse rfl).bind fun _ s3 h3 => ?_
      subst h3
      exact (ih _ _ (by omega)).bind fun _ _ h => h

/-- A read of a file without holes, in a transaction or not. -/
theorem sat_readi {past : Past} {a : Account} (hs : a.Of past s)
    (hm : Mapped s.fs.disk (s.fs.icache e).toDinode) (off n : Nat) :
    Sat (Allowed w) (readi e off n) s fun _ s' => a.Of past s' := by
  refine sat_get_bind.2 (.ite (fun _ => .ite (fun _ => ?_) fun _ => hs) fun _ => ?_)
  · exact keeps_consoleread n s hs
  · refine .ite (fun _ => hs) fun hoff => ?_
    have hle : off + min n ((s.fs.icache e).size.toNat - off) ≤ (s.fs.icache e).size.toNat := by
      omega
    exact (sat_readiLoop hm _ _ _ hle).bind fun _ s' h' => h' ▸ hs

/-- `ilock` loads the dinode and leaves the disk alone. -/
theorem sat_iload :
    Sat (fun _ => True) (iload e) s fun _ s' => s'.fs.disk = s.fs.disk ∧
      (s'.fs.icache e).toDinode =
        dinodeAt (s.fs.disk (IBLOCK (s.fs.icache e).inum s.fs.sb)) (s.fs.icache e).inum := by
  refine sat_fsState_bind.2 (.bind (sat_bread trivial trivial) fun c s1 h1 => ?_)
  obtain ⟨rfl, rfl⟩ := h1
  refine sat_modifyInode_bind.2 (.bind (sat_brelse rfl) fun _ s2 h2 => ?_)
  subst h2
  exact sat_panicIf.2 ⟨fun _ => trivial, fun _ => ⟨rfl, by simp [State.setInode]⟩⟩

/-- What `ilock` leaves in the cache entry. -/
theorem sat_ilock :
    Sat (fun _ => True) (ilock e) s fun _ s' =>
      0 < (s.fs.icache e).ref ∧ s'.fs.disk = s.fs.disk ∧
        (s'.fs.icache e).toDinode = current s.fs e := by
  refine sat_get_bind.2 (sat_panicIf_bind.2 ⟨fun _ => trivial, fun href => ?_⟩)
  have hpos : 0 < (s.fs.icache e).ref := by omega
  refine .ite (fun _ => trivial) fun _ => .ite (fun hv => ?_) fun hv => ?_
  · refine ⟨hpos, rfl, ?_⟩
    simp [current, hv, State.setInode]
  · refine sat_iload.weaken fun _ s' h => ⟨hpos, h.1, h.2.trans ?_⟩
    simp [current, hv, State.setInode]

end

/-! ## The calls -/

section
variable {past : Before} {k : Kernel Sys}

/-- `ilock` of a file that is in use finds a file without holes. -/
theorem sat_ilock_mapped {w : Bool} {a : KAccount} {e : Fin NINODE} (hk : a.Of past k)
    (hf : HoleFree k.fs.fs) :
    Sat (Allowed w) (liftFs (ilock e)) k fun _ k' =>
      KAccount.Of past ⟨{ a.held with locks := e ::ₘ a.held.locks }, a.fresh⟩ k' ∧
        Mapped k'.fs.fs.disk (k'.fs.fs.icache e).toDinode := by
  refine sat_zoom.2 (((moves_ilock e k.fs hk.held).and sat_ilock).weaken fun _ s' h => ?_)
  obtain ⟨hs', href, hdisk, hnode⟩ := h
  refine ⟨{ hk with held := hs' }, ?_⟩
  show Mapped s'.fs.disk (s'.fs.icache e).toDinode
  rw [hdisk, hnode]
  exact hf e href

theorem sat_readi_mapped {w : Bool} {a : KAccount} {e : Fin NINODE} (hk : a.Of past k)
    (hm : Mapped k.fs.fs.disk (k.fs.fs.icache e).toDinode) (off n : Nat) :
    Sat (Allowed w) (liftFs (readi e off n)) k fun _ k' => a.Of past k' :=
  sat_zoom.2 ((sat_readi hk.held hm off n).weaken fun _ _ h => { hk with held := h })

/-- A read of a file without holes, between transactions. -/
theorem sat_fileread {w : Bool} {ops : List LogOp} {x : Fin NINODE → Int} (hk : Idle ops x k)
    (hf : HoleFree k.fs.fs) (f : Fin NFILE) (n : UInt32) (r : Int) :
    Sat (Allowed w) (fileread f n r) k fun _ k' => Idle ops x k' := by
  refine sat_get_bind.2 (.ite (fun _ => hk) fun _ => ?_)
  obtain ⟨c, hi⟩ := id hk
  split
  · exact hk
  · refine (sat_ilock_mapped hi hf).bind fun _ k1 h1 => ?_
    obtain ⟨hk1, hm⟩ := h1
    refine (sat_readi_mapped hk1 hm _ _).bind fun r k2 hk2 => ?_
    refine (Moves.bind (keeps_advance _ (Multiset.notMem_zero f)) (fun _ => ?_) k2 hk2).weaken
      fun _ _ h => ⟨c, h⟩
    exact (moves_liftFs (moves_iunlock _)).bind fun _ => .pure
  · exact allowed_panic (by decide)

end

/-- Every file-system call, from any state that calls lead to, on a file system without holes: it
does not end in the panic of `log_write`, and when it returns, what it asked of the log is a list of
transactions with their writes, and every buffer and every inode lock that it took is given back. -/
theorem calls_balanced {disk : Nat → Block} {console : Nat → Option (List UInt8)}
    {initproc : Fin NPROC} {steps : List Step} {k : Kernel Sys}
    (hr : Run (boot disk console initproc) steps k) (hf : HoleFree k.fs.fs) (p : Fin NPROC) (call : Call) :
    Sat (fun e => e ≠ .panic "log_write outside of trans") (call.run p) k fun _ k' =>
      (∃ ops, k'.fs.ops = k.fs.ops ++ ops ∧ Transactions ops) ∧
        k'.fs.outstanding = k.fs.outstanding ∧ k'.fs.bufs = k.fs.bufs ∧
          k'.fs.locks = k.fs.locks ∧ ∀ e, (k'.fs.fs.icache e).busy = false := by
  obtain ⟨x, hidle, -⟩ := idle_of_run hr
  obtain ⟨c, hk⟩ := id hidle
  refine (sat_run (w := false) hidle (sat_fileread hidle hf) p call).mono ?_ fun _ k' hk' => ?_
  · intro e he hpanic
    cases he hpanic
  · obtain ⟨x', c', hk'⟩ : ∃ x, Idle k.fs.ops x k' := by
      rcases hk' with ⟨-, e, hk'⟩ | ⟨-, hk'⟩
      · exact ⟨_, hk'⟩
      · exact ⟨_, hk'⟩
    obtain ⟨ops, hops, hfollow⟩ := hk'.held.ops
    refine ⟨⟨ops, hops, transactions_of_follow.1 hfollow⟩, ?_, ?_, ?_, fun e => ?_⟩
    · rw [hk'.held.outstanding, hk.held.outstanding]
    · rw [(Multiset.coe_eq_zero _).1 hk'.held.bufs, (Multiset.coe_eq_zero _).1 hk.held.bufs]
    · rw [(Multiset.coe_eq_zero _).1 hk'.held.locks, (Multiset.coe_eq_zero _).1 hk.held.locks]
    · exact Bool.eq_false_iff.2 fun hb => Multiset.notMem_zero e (hk'.held.within e hb)

/-- The root directory is opened and read. -/
theorem calls_balanced_read : ∃ k fd,
    (Call.open (some [slash]) O_RDONLY).run firstSlot rootKernel = .ok (fd, k) ∧ HoleFree k.fs.fs ∧
    Sat (fun e => e ≠ .panic "log_write outside of trans")
      ((Call.read fd (some 16) 0).run firstSlot) k fun _ k' =>
        (∃ ops, k'.fs.ops = k.fs.ops ++ ops ∧ Transactions ops) ∧
          k'.fs.outstanding = k.fs.outstanding ∧ k'.fs.bufs = k.fs.bufs ∧
            k'.fs.locks = k.fs.locks ∧ ∀ e, (k'.fs.fs.icache e).busy = false := by
  have hrun : ((Call.open (some [slash]) O_RDONLY).run firstSlot rootKernel).toOption.any
      (fun r => decide (HoleFree r.2.fs.fs)) = true := by
    decide +kernel
  obtain ⟨⟨fd, k⟩, hopen, hfree⟩ := exists_ok hrun
  have hf : HoleFree k.fs.fs := of_decide_eq_true hfree
  exact ⟨k, fd, hopen, hf, calls_balanced (.step .init hopen) hf firstSlot _⟩

end TronBoss.Txn
