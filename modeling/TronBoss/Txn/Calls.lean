import TronBoss.Fs.Kernel
import TronBoss.Lib.Ledger
import TronBoss.Txn.Balance

/-!
# Balance of the file-system calls

Between calls nothing is held: no transaction is open, no buffer is taken and no inode is locked.
Every call that returns gives back what it took, on each of its paths. A read is the one call that
looks up blocks outside of a transaction, so it must not meet a hole; on a file system without holes
no call ends in the panic of `log_write`.
-/

namespace TronBoss.Txn

open Lib Fs Function Multiset

/-! ## Calls that work on inodes only -/

section
variable {w : Bool} {past : Past} {B : Multiset Nat} {L R : Multiset (Fin NINODE)}

/-- The end of a path that fails: the transaction is over. -/
theorem moves_endOp_return {α : Type} (r : α) :
    Takes past w ⟨true, B, L, R⟩ (do endOp; return r) fun _ => ⟨false, B, L, R⟩ :=
  moves_endOp.bind fun _ => .pure

/-- A routine that works inside of a transaction and puts a locked inode at the end. -/
theorem moves_put_endOp {α : Type} (e : Fin NINODE) (r : α) :
    Takes past w ⟨true, B, e ::ₘ L, e ::ₘ R⟩ (do iunlockput e; endOp; return r)
      fun _ => ⟨false, B, L, R⟩ :=
  (moves_iunlockput (.inl rfl) e).bind fun _ => moves_endOp_return r

theorem moves_linkBad (ip : Fin NINODE) :
    Takes past w ⟨true, B, L, ip ::ₘ R⟩ (linkBad ip) fun _ => ⟨false, B, L, R⟩ := by
  refine (moves_ilock ip).bind fun _ => ?_
  exact .bind (keeps_updateInode (.inl rfl) ip fun _ => ⟨id, rfl⟩) fun _ => moves_put_endOp ip _

/-- `sys_link` releases all that it takes, on each of its ways out. -/
theorem keeps_sysLink (cwd : Fin NINODE) (old new : List UInt8) :
    Keeps past w ⟨false, B, L, R⟩ (sysLink cwd old new) := by
  refine moves_beginOp.bind fun _ => (moves_namei (.inl rfl) cwd old).bind fun r => ?_
  cases r with
  | none => exact moves_endOp_return _
  | some ip =>
    refine (moves_ilock ip).bind fun _ => .get_bind fun s => .ite (moves_put_endOp ip _) ?_
    refine .bind (keeps_updateInode (.inl rfl) ip fun _ => ⟨id, rfl⟩) fun _ => ?_
    refine (moves_iunlock ip).bind fun _ => (moves_nameiparent (.inl rfl) cwd new).bind fun r => ?_
    cases r with
    | none => exact moves_linkBad ip
    | some q =>
      refine (moves_ilock q.1).bind fun _ => (keeps_dirlink (.inl rfl) q.1 _ _).bind fun r => ?_
      refine .ite ?_ ?_
      · exact (moves_iunlockput (.inl rfl) q.1).bind fun _ => moves_linkBad ip
      · refine (moves_iunlockput (.inl rfl) q.1).bind fun _ => ?_
        exact (moves_iput (.inl rfl) ip).bind fun _ => moves_endOp_return _

theorem keeps_isdiremptyFrom {b : Bool} (hw : b = true ∨ w = true) (dp : Fin NINODE) (k off : Nat) :
    Keeps past w ⟨b, B, L, R⟩ (isdiremptyFrom dp k off) := by
  induction k generalizing off with
  | zero => exact .throw allowed_diverge
  | succ k ih =>
    refine .get_bind fun s => .ite ((keeps_readDirent hw dp off (by decide)).bind fun de => ?_) .pure
    exact .ite .pure (ih _)

theorem keeps_unlinkable (ip : Fin NINODE) (type : Int16) :
    Keeps past w ⟨true, B, L, R⟩ (unlinkable ip type) :=
  .ite (.get_bind fun _ => keeps_isdiremptyFrom (.inl rfl) ip _ _) .pure

theorem keeps_unlinkParent (dp : Fin NINODE) (type : Int16) :
    Keeps past w ⟨true, B, L, R⟩ (unlinkParent dp type) :=
  .ite (keeps_updateInode (.inl rfl) dp fun _ => ⟨id, rfl⟩) .pure

/-- Both inodes are locked, and put one after the other. -/
theorem moves_unlinkFound (dp ip : Fin NINODE) (off : Nat) :
    Takes past w ⟨true, B, dp ::ₘ L, ip ::ₘ dp ::ₘ R⟩ (unlinkFound dp ip off)
      fun _ => ⟨false, B, L, R⟩ := by
  refine (moves_ilock ip).bind fun _ => .get_bind fun s => ?_
  refine .panicIf_bind (allowed_panic (by decide)) ?_
  refine (keeps_unlinkable ip _).bind fun ok => .ite ?_ ?_
  · exact (moves_iunlockput (.inl rfl) ip).bind fun _ => moves_put_endOp dp _
  · refine (keeps_writei (.inl rfl) dp _ off).bind fun r => ?_
    refine .panicIf_bind (allowed_panic (by decide)) ?_
    refine (keeps_unlinkParent dp _).bind fun _ => ?_
    rw [cons_swap ip dp L, cons_swap ip dp R]
    refine (moves_iunlockput (.inl rfl) dp).bind fun _ => ?_
    exact .bind (keeps_updateInode (.inl rfl) ip fun _ => ⟨id, rfl⟩) fun _ => moves_put_endOp ip _

/-- `unlink` gives back all it takes, on each of its exits. -/
theorem keeps_sysUnlink (cwd : Fin NINODE) (path : List UInt8) :
    Keeps past w ⟨false, B, L, R⟩ (sysUnlink cwd path) := by
  refine moves_beginOp.bind fun _ => (moves_nameiparent (.inl rfl) cwd path).bind fun r => ?_
  cases r with
  | none => exact moves_endOp_return _
  | some q =>
    refine (moves_ilock q.1).bind fun _ => .ite (moves_put_endOp q.1 _) ?_
    refine (moves_dirlookup (.inl rfl) q.1 _).bind fun r => ?_
    cases r with
    | none => exact moves_put_endOp q.1 _
    | some f => exact moves_unlinkFound q.1 f.2 f.1

theorem keeps_createDots (dp ip : Fin NINODE) (type : Int16) :
    Keeps past w ⟨true, B, L, R⟩ (createDots dp ip type) := by
  refine .ite (.bind (keeps_updateInode (.inl rfl) dp fun _ => ⟨id, rfl⟩) fun _ => ?_) .pure
  refine .get_bind fun s => (keeps_dirlink (.inl rfl) ip _ _).bind fun r => ?_
  refine .panicIf_bind (allowed_panic (by decide)) ?_
  exact (keeps_dirlink (.inl rfl) ip _ _).bind fun r => .panicIf (allowed_panic (by decide))

/-- The directory is handed in and the new inode handed out. -/
theorem moves_createNew (dp : Fin NINODE) (name : List UInt8) (type major minor : Int16) :
    Takes past w ⟨true, B, dp ::ₘ L, dp ::ₘ R⟩ (createNew dp name type major minor)
      fun ip => ⟨true, B, ip ::ₘ L, ip ::ₘ R⟩ := by
  refine (moves_ialloc (.inl rfl) type).bind fun ip => (moves_ilock ip).bind fun _ => ?_
  refine .bind (keeps_updateInode (.inl rfl) ip fun _ => ⟨id, rfl⟩) fun _ => ?_
  refine (keeps_createDots dp ip type).bind fun _ => .get_bind fun s => ?_
  refine (keeps_dirlink (.inl rfl) dp name _).bind fun r => ?_
  refine .panicIf_bind (allowed_panic (by decide)) ?_
  rw [cons_swap ip dp L, cons_swap ip dp R]
  exact (moves_iunlockput (.inl rfl) dp).bind fun _ => .result rfl

/-- `create` returns with the new inode locked, or with nothing. -/
theorem moves_create (cwd : Fin NINODE) (path : List UInt8) (type major minor : Int16) :
    Takes past w ⟨true, B, L, R⟩ (create cwd path type major minor)
      fun r => ⟨true, B, joined r L, joined r R⟩ := by
  refine (moves_nameiparent (.inl rfl) cwd path).bind fun r => ?_
  cases r with
  | none => exact .result rfl
  | some q =>
    refine (moves_ilock q.1).bind fun _ => (moves_dirlookup (.inl rfl) q.1 _).bind fun r => ?_
    cases r with
    | none => exact (moves_createNew q.1 _ _ _ _).bind fun _ => .result rfl
    | some f =>
      change Takes past w ⟨true, B, q.1 ::ₘ L, f.2 ::ₘ q.1 ::ₘ R⟩ _ _
      rw [cons_swap]
      refine (moves_iunlockput (.inl rfl) q.1).bind fun _ => (moves_ilock f.2).bind fun _ => ?_
      refine .get_bind fun s => .ite (.result rfl) ?_
      exact (moves_iunlockput (.inl rfl) f.2).bind fun _ => .result rfl

theorem moves_createPut (cwd : Fin NINODE) (path : List UInt8) (type major minor : Int16) :
    Takes past w ⟨true, B, L, R⟩ (createPut cwd path type major minor) fun _ => ⟨false, B, L, R⟩ := by
  refine (moves_create cwd path type major minor).bind fun r => ?_
  cases r with
  | none => exact moves_endOp_return _
  | some ip => exact moves_put_endOp ip _

theorem keeps_sysMkdir (cwd : Fin NINODE) (path : Option (List UInt8)) :
    Keeps past w ⟨false, B, L, R⟩ (sysMkdir cwd path) := by
  refine moves_beginOp.bind fun _ => ?_
  cases path with
  | none => exact moves_endOp_return _
  | some path => exact moves_createPut cwd path _ _ _

theorem keeps_sysMknod (cwd : Fin NINODE) (args : Option (List UInt8 × Int16 × Int16)) :
    Keeps past w ⟨false, B, L, R⟩ (sysMknod cwd args) := by
  refine moves_beginOp.bind fun _ => ?_
  cases args with
  | none => exact moves_endOp_return _
  | some args => exact moves_createPut cwd args.1 _ _ _

/-- `chmod`, `chown` and `chgrp` keep the reference that `namei` took when they succeed. -/
theorem sat_chattr {s : Sys} (hs : Account.Of past ⟨false, B, L, R⟩ s) (cwd : Fin NINODE)
    (path : List UInt8) {f : Inode → Inode}
    (hf : ∀ ip, ((f ip).busy = true → ip.busy = true) ∧ (f ip).ref = ip.ref) :
    Sat (Allowed w) (chattr cwd path f) s fun r s' =>
      (r = 0 ∧ ∃ e, Account.Of past ⟨false, B, L, e ::ₘ R⟩ s') ∨
        (r ≠ 0 ∧ Account.Of past ⟨false, B, L, R⟩ s') := by
  refine (moves_beginOp s hs).bind fun _ s1 h1 => (moves_namei (.inl rfl) cwd path s1 h1).bind
    fun r s2 h2 => ?_
  cases r with
  | none => exact (moves_endOp s2 h2).bind fun _ s3 h3 => .inr ⟨by decide, h3⟩
  | some temp =>
    refine (moves_ilock temp s2 h2).bind fun _ s3 h3 => ?_
    refine (keeps_updateInode (.inl rfl) temp hf s3 h3).bind fun _ s4 h4 => ?_
    refine (moves_iunlock temp s4 h4).bind fun _ s5 h5 => (moves_endOp s5 h5).bind fun _ s6 h6 => ?_
    exact .inl ⟨rfl, temp, h6⟩

/-- Where the inode is found, the transaction stays open. -/
theorem moves_openInode (cwd : Fin NINODE) (path : List UInt8) (omode : UInt32) :
    Takes past w ⟨true, B, L, R⟩ (openInode cwd path omode) 
      fun r => ⟨r.isSome, B, joined r L, joined r R⟩ := by
  refine .ite ((moves_create cwd path _ _ _).bind fun r => ?_)
    ((moves_namei (.inl rfl) cwd path).bind fun r => ?_)
  · cases r with
    | none => exact moves_endOp.bind fun _ => .result rfl
    | some ip => exact .result rfl
  · cases r with
    | none => exact moves_endOp.bind fun _ => .result rfl
    | some ip =>
      refine (moves_ilock ip).bind fun _ => .get_bind fun s => .ite ?_ (.result rfl)
      refine (moves_iunlockput (.inl rfl) ip).bind fun _ => ?_
      exact moves_endOp.bind fun _ => .result rfl

/-! ## `exec` -/

theorem keeps_loaduvmLoop (env : ExecEnv) (ip : Fin NINODE) (addr offset sz : UInt32) (k : Nat)
    (i : UInt32) : Keeps past w ⟨true, B, L, R⟩ (loaduvmLoop env ip addr offset sz k i) := by
  induction k generalizing i with
  | zero => exact .throw allowed_diverge
  | succ k ih =>
    refine .ite ?_ .pure
    refine .panicIf_bind (allowed_panic (by decide)) ?_
    refine (keeps_readi (.inl rfl) ip _ _).bind fun r => ?_
    cases r with
    | none => exact .pure
    | some bs => exact .ite (ih _) .pure

theorem keeps_loaduvm (env : ExecEnv) (ip : Fin NINODE) (addr offset sz : UInt32) :
    Keeps past w ⟨true, B, L, R⟩ (loaduvm env ip addr offset sz) :=
  .panicIf_bind (allowed_panic (by decide)) (keeps_loaduvmLoop env ip _ _ _ _ _)

/-- The loop over the program headers takes nothing for good. -/
theorem keeps_execSegments (env : ExecEnv) (ip : Fin NINODE) (k i : Nat) (off sz : UInt32) :
    Keeps past w ⟨true, B, L, R⟩ (execSegments env ip k i off sz) := by
  induction k generalizing i off sz with
  | zero => exact .pure
  | succ k ih =>
    refine (keeps_readi (.inl rfl) ip _ _).bind fun r => ?_
    cases r with
    | none => exact .pure
    | some bs =>
      refine .ite .pure (.ite (ih _ _ _) (.ite .pure (.ite .pure ?_)))
      exact (keeps_loaduvm env ip _ _ _).bind fun ok => .ite (ih _ _ _) .pure

theorem keeps_execHeader (env : ExecEnv) (ip : Fin NINODE) :
    Keeps past w ⟨true, B, L, R⟩ (execHeader env ip) := by
  refine (keeps_readi (.inl rfl) ip 0 elfhdrSize).bind fun r => ?_
  cases r with
  | none | some bs => exact .pure

theorem keeps_execLoad (env : ExecEnv) (ip : Fin NINODE) :
    Keeps past w ⟨true, B, L, R⟩ (execLoad env ip) := by
  refine (keeps_execHeader env ip).bind fun elf => ?_
  cases elf with
  | none => exact .pure
  | some elf => exact .ite .pure (.ite .pure (keeps_execSegments env ip _ _ _ _))

/-- `exec` gives back the inode of the program, also where it fails. -/
theorem keeps_exec (cwd : Fin NINODE) (path : List UInt8) (env : ExecEnv) :
    Keeps past w ⟨false, B, L, R⟩ (exec cwd path env) := by
  refine moves_beginOp.bind fun _ => (moves_namei (.inl rfl) cwd path).bind fun r => ?_
  cases r with
  | none => exact moves_endOp_return _
  | some ip =>
    refine (moves_ilock ip).bind fun _ => (keeps_stati).bind fun st => ?_
    refine .ite ((keeps_execLoad env ip).bind fun r => ?_) (moves_put_endOp ip _)
    cases r with
    | none | some sz => exact moves_put_endOp ip _

end

/-! ## Files -/

/-- The kernel after `userinit`, on any disk. -/
def boot (disk : Nat → Block) (console : Nat → Option (List UInt8)) (initproc : Fin NPROC) :
    Kernel Sys :=
  { Fs.userinit disk console initproc with
    fs := {
      fs := (Fs.userinit disk console initproc).fs, outstanding := 0, bufs := [], locks := [],
      ops := [] } }

/-- What is held, and the files that `filealloc` has handed out and nobody uses yet. -/
structure KAccount where
  held : Account
  fresh : Multiset (Fin NFILE)

/-- What an account does not count: what was asked of the log before, the references that nobody holds,
and the current directories. -/
structure Before where
  ops : List LogOp
  extra : Fin NINODE → Int
  cwd : Fin NPROC → Option (Fin NINODE)

/-- The kernel has the account. A file without references has the type `FD_NONE`. -/
structure KAccount.Of (past : Before) (a : KAccount) (k : Kernel Sys) : Prop where
  held : a.held.Of ⟨past.ops, fun e => k.files e + k.cwds e + past.extra e⟩ k.fs
  cwd : ∀ p, (k.proc p).cwd = past.cwd p
  closed : ∀ f, (k.file f).ref = 0 → (k.file f).type = .none
  nodup : a.fresh.Nodup
  fresh : ∀ f ∈ a.fresh, 0 < (k.file f).ref ∧ (k.file f).type = .none

/-- A routine of the kernel that gives back what it takes. -/
abbrev KKeeps {α : Type} (past : Before) (w : Bool) (a : KAccount) (m : SysM Sys α) : Prop :=
  Moves (KAccount.Of past) (Allowed w) a m fun _ => a

/-- The routine gets from the account to the one `f` has for its result. -/
abbrev KTakes {α : Type} (past : Before) (w : Bool) (a : KAccount) (m : SysM Sys α)
    (f : α → KAccount) : Prop :=
  Moves (KAccount.Of past) (Allowed w) a m f

theorem count_joined (r : Option (Fin NINODE)) (R : Multiset (Fin NINODE)) (e : Fin NINODE) :
    (joined r R).count e = R.count e + if r = some e then 1 else 0 := by
  cases r with
  | none => simp [joined]
  | some e' => simp [joined, count_cons, eq_comm]

/-- The same references, counted differently. -/
theorem Account.Of.rebase {o o' : Past} {a : Account} {s : Sys} {R : Multiset (Fin NINODE)}
    (hs : a.Of o s) (hops : o'.ops = o.ops)
    (h : ∀ e, o'.refs e + R.count e = o.refs e + a.refs.count e) :
    Account.Of o' { a with refs := R } s :=
  { hs with ops := hops ▸ hs.ops, refs := fun e => (hs.refs e).trans (h e).symm }

section
variable {w b : Bool} {past : Before} {a : Account} {F : Multiset (Fin NFILE)}
  {B : Multiset Nat} {L R : Multiset (Fin NINODE)} {f : Fin NFILE} {p : Fin NPROC} {fd : Int}
  {k : Kernel Sys}

theorem moves_liftFs {α : Type} {m : TxM α} {g : α → Account}
    (h : ∀ {o : Past}, Takes o w a m g) :
    KTakes past w ⟨a, F⟩ (liftFs m) fun r => ⟨g r, F⟩ := fun k hk =>
  sat_zoom.2 ((h k.fs hk.held).weaken fun _ _ h' => { hk with held := h' })

/-- A reference that is held and then left to nobody. -/
theorem KAccount.of_leave {ops : List LogOp} {x : Fin NINODE → Int}
    {c : Fin NPROC → Option (Fin NINODE)} {e : Fin NINODE} :
    KAccount.Of ⟨ops, x, c⟩ ⟨⟨b, B, L, e ::ₘ R⟩, F⟩ k ↔
      KAccount.Of ⟨ops, x + Pi.single e 1, c⟩ ⟨⟨b, B, L, R⟩, F⟩ k := by
  have hcount (e' : Fin NINODE) : ((e ::ₘ R).count e' : Int) =
      R.count e' + (Pi.single e 1 : Fin NINODE → Int) e' := by
    rw [Pi.single_apply, count_cons]
    split <;> simp
  constructor
  · refine fun hk => { hk with held := hk.held.rebase rfl fun e' => ?_ }
    simp only [hcount, Pi.add_apply]
    ring
  · refine fun hk => { hk with held := hk.held.rebase rfl fun e' => ?_ }
    simp only [hcount, Pi.add_apply]
    ring

/-- A reference that somebody gives up is held. -/
theorem KAccount.of_release {ops : List LogOp} {x : Fin NINODE → Int}
    {c : Fin NPROC → Option (Fin NINODE)} {e : Fin NINODE} :
    KAccount.Of ⟨ops, x - Pi.single e 1, c⟩ ⟨⟨b, B, L, e ::ₘ R⟩, F⟩ k ↔
      KAccount.Of ⟨ops, x, c⟩ ⟨⟨b, B, L, R⟩, F⟩ k := by
  rw [KAccount.of_leave, sub_add_cancel]

/-- A process is replaced. What it refers to now was held, and what it referred to is held then. -/
theorem KAccount.Of.setProc {q : ProcFiles} (hk : KAccount.Of past ⟨a, F⟩ k)
    (hR : joined q.cwd R = joined (k.proc p).cwd a.refs) :
    KAccount.Of { past with cwd := update past.cwd p q.cwd } ⟨{ a with refs := R }, F⟩
      { k with proc := update k.proc p q } where
  held := by
    refine hk.held.rebase rfl fun e => ?_
    have hcount := card_filter_update (fun q : ProcFiles => q.cwd = some e) k.proc p q
    have hsum := congrArg (count e) hR
    rw [count_joined, count_joined] at hsum
    simp only [Kernel.cwds, Kernel.files, hcount]
    split_ifs at hsum ⊢ <;> omega
  cwd p' := by
    rcases eq_or_ne p' p with rfl | hne
    · simp only [update_self]
    · simp only [update_of_ne hne, hk.cwd]
  closed := hk.closed
  nodup := hk.nodup
  fresh := hk.fresh

theorem keeps_modifyProc {g : ProcFiles → ProcFiles} (hg : ∀ q, (g q).cwd = q.cwd) :
    KKeeps past w ⟨a, F⟩ (modifyProc p g) := by
  refine .modify fun k hk => ?_
  have hk' := hk.setProc (p := p) (q := g (k.proc p)) (R := a.refs) (by rw [hg])
  rwa [hg, hk.cwd, update_eq_self] at hk'

/-- A file is replaced that is not fresh. What it refers to now was held, and what it referred to is
held then. -/
theorem KAccount.Of.setFile {x : File} (hk : KAccount.Of past ⟨a, F⟩ k) (hf : f ∉ F)
    (hx : x.ref = 0 → x.type = .none)
    (hR : joined x.inode? R = joined (k.file f).inode? a.refs) :
    KAccount.Of past ⟨{ a with refs := R }, F⟩ { k with file := update k.file f x } where
  held := by
    refine hk.held.rebase rfl fun e => ?_
    have hcount := card_filter_update (fun x : File => x.inode? = some e) k.file f x
    have hsum := congrArg (count e) hR
    rw [count_joined, count_joined] at hsum
    simp only [Kernel.cwds, Kernel.files, hcount]
    split_ifs at hsum ⊢ <;> omega
  cwd := hk.cwd
  closed f' hf' := by
    rcases eq_or_ne f' f with rfl | hne
    · simp only [update_self] at hf' ⊢
      exact hx hf'
    · simp only [update_of_ne hne] at hf' ⊢
      exact hk.closed f' hf'
  nodup := hk.nodup
  fresh f' hf' := by
    have hne : f' ≠ f := fun h => hf (h ▸ hf')
    simpa only [update_of_ne hne] using hk.fresh f' hf'

/-- A fresh file is taken into use or closed. -/
theorem KAccount.Of.settle {x : File} (hk : KAccount.Of past ⟨a, f ::ₘ F⟩ k)
    (hx : x.ref = 0 → x.type = .none) (hR : joined x.inode? R = a.refs) :
    KAccount.Of past ⟨{ a with refs := R }, F⟩ { k with file := update k.file f x } := by
  have hnd := nodup_cons.1 hk.nodup
  have hF : KAccount.Of past ⟨a, F⟩ k :=
    { hk with nodup := hnd.2, fresh := fun f' hf' => hk.fresh f' (mem_cons_of_mem hf') }
  have hnone : (k.file f).inode? = none :=
    if_neg fun h => by simp [(hk.fresh f (mem_cons_self f F)).2] at h
  exact hF.setFile hnd.1 hx (by rw [hR, hnone]; rfl)

/-- The file that was handed out, if there was one. -/
def handed : Option (Fin NFILE) → Multiset (Fin NFILE) → Multiset (Fin NFILE)
  | none, F => F
  | some f, F => f ::ₘ F

/-- A file that `filealloc` finds is in the hands of the caller. -/
theorem moves_filealloc : KTakes past w ⟨a, F⟩ filealloc fun r => ⟨a, handed r F⟩ := by
  intro k hk
  refine sat_get_bind.2 ?_
  split
  · rename_i f hfind
    have href : (k.file f).ref = 0 := by
      have := List.find?_some hfind
      exact of_decide_eq_true this
    have hnot : f ∉ F := fun hf => (hk.fresh f hf).1.ne' href
    have hk' := hk.setFile (R := a.refs) hnot (x := { k.file f with ref := 1 }) (by simp)
      (by simp [File.inode?, hk.closed f href])
    refine { hk' with nodup := nodup_cons.2 ⟨hnot, hk.nodup⟩, fresh := fun f' hf' => ?_ }
    rcases mem_cons.1 hf' with rfl | hf'
    · simp [hk.closed f' href]
    · exact hk'.fresh f' hf'
  · exact hk

theorem keeps_fdalloc : KKeeps past w ⟨a, F⟩ (fdalloc p f) := by
  refine .get_bind fun k => ?_
  dsimp only
  split
  · exact .bind (keeps_modifyProc fun _ => rfl) fun _ => .pure
  · exact .pure

theorem keeps_filedup (hf : f ∉ F) : KKeeps past w ⟨a, F⟩ (filedup f) := by
  intro k hk
  refine sat_get_bind.2 (sat_panicIf_bind.2 ⟨fun _ => allowed_panic (by decide), fun href => ?_⟩)
  have h0 : 0 < (k.file f).ref := by omega
  have h1 : 0 < (k.file f).ref + 1 := by omega
  exact hk.setFile hf (fun h => absurd h h1.ne') (by simp only [File.inode?, h0, h1])

/-- No account counts the pages of pipes. -/
theorem keeps_pipeclose (page : UInt32) (writable : Bool) :
    KKeeps past w ⟨a, F⟩ (pipeclose page writable) := by
  refine .bind (.modify fun _ hk => { hk with }) fun _ => .get_bind fun _ => .ite ?_ .pure
  exact .modify fun _ hk => { hk with }

/-- The transaction in which a reference is given up, which needs none to be open. -/
theorem moves_release (e : Fin NINODE) :
    KTakes past w ⟨⟨false, B, L, e ::ₘ R⟩, F⟩ (liftFs (Inodes.release e))
      fun _ => ⟨⟨false, B, L, R⟩, F⟩ :=
  moves_liftFs (moves_beginOp.bind fun _ => (moves_iput (.inl rfl) e).bind fun _ => moves_endOp)

/-- What `fileclose` does after the lock drops the reference of a closed file. -/
theorem moves_fileput {ff : File} (hr : 0 < ff.ref) :
    KTakes past w ⟨⟨false, B, L, joined ff.inode? R⟩, F⟩ (fileput ff)
      fun _ => ⟨⟨false, B, L, R⟩, F⟩ := by
  rw [fileput, File.inode?]
  cases ff.type with
  | pipe =>
    rw [if_neg fun h => nomatch h.2]
    exact keeps_pipeclose ff.pipe ff.writable
  | inode =>
    rw [if_pos ⟨hr, rfl⟩]
    exact moves_release ff.ip
  | none =>
    rw [if_neg fun h => nomatch h.2]
    exact .pure

/-- `fileclose` of the last descriptor drops the reference of the file. -/
theorem keeps_fileclose (hf : f ∉ F) : KKeeps past w ⟨⟨false, B, L, R⟩, F⟩ (fileclose f) := by
  intro k hk
  refine sat_get_bind.2 (sat_panicIf_bind.2 ⟨fun _ => allowed_panic (by decide), fun href => ?_⟩)
  have h0 : 0 < (k.file f).ref := by omega
  refine .ite (fun hlt => ?_) fun _ => sat_modify_bind.2 ?_
  · exact hk.setFile hf (fun h => absurd h hlt.ne') (by simp only [File.inode?, h0, hlt])
  · exact moves_fileput h0 _ (hk.setFile hf (fun _ => rfl) rfl)

/-- A fresh file has nothing behind it, so that closing it opens no transaction. -/
theorem moves_fileclose_fresh : KTakes past w ⟨a, f ::ₘ F⟩ (fileclose f) fun _ => ⟨a, F⟩ := by
  intro k hk
  have htype := (hk.fresh f (mem_cons_self f F)).2
  refine sat_get_bind.2 (sat_panicIf_bind.2 ⟨fun _ => allowed_panic (by decide), fun href => ?_⟩)
  refine .ite (fun hlt => ?_) fun _ => sat_modify_bind.2 ?_
  · exact hk.settle (fun h => absurd h hlt.ne') (by simp [File.inode?, htype, joined])
  · rw [fileput, htype]
    exact hk.settle (fun _ => rfl) rfl

/-- A fresh file gets its type, and the reference to an inode that comes with it. -/
theorem moves_settle {g : File → File} {i : Option (Fin NINODE)} (hg : ∀ x, (g x).ref = x.ref)
    (hi : ∀ x, 0 < x.ref → (g x).inode? = i) :
    KTakes past w ⟨⟨b, B, L, joined i R⟩, f ::ₘ F⟩ (modifyFile f g)
      fun _ => ⟨⟨b, B, L, R⟩, F⟩ := by
  refine .modify fun k hk => ?_
  have hpos := (hk.fresh f (mem_cons_self f F)).1
  exact hk.settle (fun h => absurd ((hg _).symm.trans h) hpos.ne') (by rw [hi _ hpos])

theorem keeps_advance (r : Int) (hf : f ∉ F) : KKeeps past w ⟨a, F⟩ (advance f r) :=
  .ite (.modify fun _ hk => hk.setFile hf (fun h => hk.closed f h) rfl) .pure

/-! ## Calls on files -/

theorem sat_cwdOf : Sat (Allowed w) (cwdOf p) k fun e k' => k' = k ∧ (k.proc p).cwd = some e := by
  refine sat_get_bind.2 ?_
  split
  · exact ⟨rfl, ‹_›⟩
  · exact nofun

theorem keeps_cwdOf : KKeeps past w ⟨a, F⟩ (cwdOf p) := fun _ hk =>
  sat_cwdOf.weaken fun _ _ h => h.1 ▸ hk

theorem keeps_filestat : KKeeps past w ⟨⟨false, B, L, R⟩, F⟩ (filestat f) := by
  refine .get_bind fun k => .ite ((moves_liftFs (moves_ilock _)).bind fun _ => ?_) .pure
  refine (moves_liftFs (keeps_stati)).bind fun st => ?_
  exact (moves_liftFs (moves_iunlock _)).bind fun _ => .pure

/-- A turn of `filewrite` begins and ends its operation. -/
theorem keeps_filewriteChunk (hf : f ∉ F) (src : List UInt8) :
    KKeeps past w ⟨⟨false, B, L, R⟩, F⟩ (filewriteChunk f src) := by
  refine (moves_liftFs moves_beginOp).bind fun _ => .get_bind fun k => ?_
  refine (moves_liftFs (moves_ilock _)).bind fun _ => ?_
  refine (moves_liftFs (keeps_writei (.inl rfl) _ src _)).bind fun r => ?_
  refine (keeps_advance r hf).bind fun _ => (moves_liftFs (moves_iunlock _)).bind fun _ => ?_
  exact (moves_liftFs moves_endOp).bind fun _ => .pure

/-- The turns of `filewrite` are operations of their own. -/
theorem keeps_filewriteLoop (hf : f ∉ F) (n : Nat) (src : List UInt8) :
    KKeeps past w ⟨⟨false, B, L, R⟩, F⟩ (filewriteLoop f n src) := by
  induction n generalizing src with
  | zero =>
    cases src with
    | nil => exact .pure
    | cons x src => exact .throw allowed_diverge
  | succ n ih =>
    cases src with
    | nil => exact .pure
    | cons x src =>
      refine (keeps_filewriteChunk hf _).bind fun r => .ite .pure ?_
      exact .panicIf_bind (allowed_panic (by decide)) (ih _)

theorem keeps_filewrite (hf : f ∉ F) (n : Int) (src : List UInt8) (r : Int) :
    KKeeps past w ⟨⟨false, B, L, R⟩, F⟩ (filewrite f n src r) := by
  refine .get_bind fun k => .ite .pure ?_
  split
  · exact .pure
  · exact (keeps_filewriteLoop hf _ src).bind fun _ => .pure
  · exact .throw (allowed_panic (by decide))

/-- A read where the panic of `log_write` is put up with. -/
theorem keeps_fileread (hw : w = true) (hf : f ∉ F) (n : UInt32) (r : Int) :
    KKeeps past w ⟨⟨false, B, L, R⟩, F⟩ (fileread f n r) := by
  refine .get_bind fun k => .ite .pure ?_
  split
  · exact .pure
  · refine (moves_liftFs (moves_ilock _)).bind fun _ => ?_
    refine (moves_liftFs (keeps_readi (.inr hw) _ _ _)).bind fun r => ?_
    exact (keeps_advance _ hf).bind fun _ => (moves_liftFs (moves_iunlock _)).bind fun _ => .pure
  · exact .throw (allowed_panic (by decide))

/-- What precedes the body of a call on a file does not change the state. -/
theorem sat_onFile {γ : Type} {E : Stop → Prop} {Q : Int → Kernel Sys → Prop}
    {arg : Option γ} {m : Fin NOFILE → Fin NFILE → γ → SysM Sys Int}
    (h : ∀ fd f x, Sat E (m fd f x) k Q) (hneg : Q (-1) k) : Sat E (onFile p fd arg m) k Q := by
  refine sat_bind.2 (sat_get_bind.2 (sat_pure.2 ?_))
  split
  · exact hneg
  · split
    · exact hneg
    · exact h _ _ _

theorem keeps_sysDup : KKeeps past w ⟨a, 0⟩ (sysDup p fd) := by
  refine fun k hk => sat_onFile (fun _ f _ => Moves.bind keeps_fdalloc (fun r => ?_) k hk) hk
  cases r with
  | none => exact .pure
  | some fd => exact (keeps_filedup (notMem_zero f)).bind fun _ => .pure

theorem keeps_sysClose :
    KKeeps past w ⟨⟨false, B, L, R⟩, 0⟩ (sysClose p fd) := by
  refine fun k hk => sat_onFile (fun fd f _ => ?_) hk
  refine Moves.bind (keeps_modifyProc (g := fun q => { q with ofile := update q.ofile fd none })
    fun _ => rfl) (fun _ => ?_) k hk
  exact (keeps_fileclose (notMem_zero f)).bind fun _ => .pure

theorem keeps_sysFstat {st : Option Unit} :
    KKeeps past w ⟨⟨false, B, L, R⟩, F⟩ (sysFstat p fd st) := by
  refine fun k hk => sat_onFile (fun _ f _ => Moves.bind keeps_filestat (fun r => ?_) k hk) hk
  cases r with
  | none | some st => exact .pure

theorem moves_unopened (ip : Fin NINODE) :
    KTakes past w ⟨⟨true, B, ip ::ₘ L, ip ::ₘ R⟩, F⟩ (do
      liftFs (Inodes.unopened ip)
      return (-1 : Int)) fun _ => ⟨⟨false, B, L, R⟩, F⟩ :=
  (moves_liftFs ((moves_iunlockput (.inl rfl) ip).bind fun _ => moves_endOp)).bind fun _ => .pure

/-- The paths of `sys_open` with a locked inode, the one that gives the file back among them. The file
takes over the reference to the inode. -/
theorem moves_openFile (p : Fin NPROC) (ip : Fin NINODE) (omode : UInt32) :
    KTakes past w ⟨⟨true, B, ip ::ₘ L, ip ::ₘ R⟩, F⟩ (openFile p ip omode)
      fun _ => ⟨⟨false, B, L, R⟩, F⟩ := by
  refine moves_filealloc.bind fun r => ?_
  cases r with
  | none => exact moves_unopened ip
  | some f =>
    refine keeps_fdalloc.bind fun r => ?_
    cases r with
    | none => exact moves_fileclose_fresh.bind fun _ => moves_unopened ip
    | some fd =>
      refine (moves_liftFs ((moves_iunlock ip).bind fun _ => moves_endOp)).bind fun _ => ?_
      refine .bind (moves_settle (i := some ip) (fun _ => rfl) fun x hx => ?_) fun _ => .pure
      exact if_pos ⟨hx, rfl⟩

theorem keeps_sysOpen (p : Fin NPROC) (path : List UInt8) (omode : UInt32) :
    KKeeps past w ⟨⟨false, B, L, R⟩, F⟩ (sysOpen p path omode) := by
  refine keeps_cwdOf.bind fun cwd => (moves_liftFs moves_beginOp).bind fun _ => ?_
  refine (moves_liftFs (moves_openInode cwd path omode)).bind fun r => ?_
  cases r with
  | none => exact .pure
  | some ip => exact moves_openFile p ip omode

/-- `chdir` gives up the reference of the process to its old directory. -/
theorem sat_chdirTo {cwd : Fin NINODE} (hcwd : past.cwd p = some cwd)
    (hk : KAccount.Of past ⟨⟨true, B, L, R⟩, F⟩ k) (path : List UInt8) :
    Sat (Allowed w) (chdirTo p cwd path) k fun _ k' =>
      ∃ c, KAccount.Of { past with cwd := c } ⟨⟨false, B, L, R⟩, F⟩ k' := by
  refine (moves_liftFs (moves_namei (.inl rfl) cwd path) k hk).bind fun r k1 h1 => ?_
  cases r with
  | none => exact (moves_liftFs moves_endOp k1 h1).bind fun _ _ h => ⟨_, h⟩
  | some ip =>
    refine (moves_liftFs (moves_ilock ip) k1 h1).bind fun _ k2 h2 => ?_
    refine .ite (fun _ => ?_) fun _ => ?_
    · refine (moves_liftFs (moves_iunlockput (.inl rfl) ip) k2 h2).bind fun _ k3 h3 => ?_
      exact (moves_liftFs moves_endOp k3 h3).bind fun _ _ h => ⟨_, h⟩
    refine (moves_liftFs (moves_iunlock ip) k2 h2).bind fun _ k3 h3 => ?_
    refine (moves_liftFs (moves_iput (.inl rfl) cwd) k3 (KAccount.of_release.2 h3)).bind fun _ k4 h4 => ?_
    refine (moves_liftFs moves_endOp k4 h4).bind fun _ k5 h5 => ?_
    have h6 := h5.setProc (p := p) (q := { k5.proc p with cwd := some ip }) (R := cwd ::ₘ R) (by
      rw [h5.cwd, hcwd]
      exact cons_swap ..)
    exact ⟨_, KAccount.of_release.1 h6⟩

/-- `chdir` hands the old directory back and keeps the new one as `cwd`. -/
theorem sat_sysChdir (hk : KAccount.Of past ⟨⟨false, B, L, R⟩, F⟩ k) (p : Fin NPROC)
    (path : Option (List UInt8)) :
    Sat (Allowed w) (sysChdir p path) k fun _ k' =>
      ∃ c, KAccount.Of { past with cwd := c } ⟨⟨false, B, L, R⟩, F⟩ k' := by
  refine sat_cwdOf.bind fun cwd k0 h0 => ?_
  obtain ⟨rfl, hcwd⟩ := h0
  refine (moves_liftFs moves_beginOp k0 hk).bind fun _ k1 h1 => ?_
  cases path with
  | none => exact (moves_liftFs moves_endOp k1 h1).bind fun _ _ h => ⟨_, h⟩
  | some path => exact sat_chdirTo ((hk.cwd p).symm.trans hcwd) h1 path

/-- `pipealloc` keeps the references, also where it fails. -/
theorem keeps_pipealloc (page : Option UInt32) :
    KKeeps past w ⟨⟨b, B, L, R⟩, F⟩ (pipealloc page) := by
  have hpipe {f : Fin NFILE} {F : Multiset (Fin NFILE)} (readable writable : Bool) (pipe : UInt32) :
      KTakes past w ⟨⟨b, B, L, R⟩, f ::ₘ F⟩
        (modifyFile f fun x => { x with type := .pipe, readable, writable, pipe })
        fun _ => ⟨⟨b, B, L, R⟩, F⟩ :=
    moves_settle (i := none) (fun _ => rfl) fun _ _ => if_neg (by simp)
  refine moves_filealloc.bind fun r => ?_
  cases r with
  | none => exact .pure
  | some f0 =>
    refine moves_filealloc.bind fun r => ?_
    cases r with
    | none => exact moves_fileclose_fresh.bind fun _ => .pure
    | some f1 =>
      have hswap : handed (some f1) (handed (some f0) F) = f0 ::ₘ f1 ::ₘ F :=
        cons_swap f1 f0 F
      rw [hswap]
      cases page with
      | none => exact moves_fileclose_fresh.bind fun _ => moves_fileclose_fresh.bind fun _ => .pure
      | some addr =>
        refine .get_bind fun _ k hk => sat_require_bind.2 ⟨nofun, fun _ => ?_⟩
        refine Moves.bind (.bind (.modify fun _ hk => { hk with }) fun _ => ?_) (fun _ => .pure) k hk
        exact (hpipe true false addr).bind fun _ => hpipe false true addr

/-- `sys_pipe` closes the ends again where it fails. -/
theorem keeps_sysPipe (p : Fin NPROC) (page : Option UInt32) :
    KKeeps past w ⟨⟨false, B, L, R⟩, 0⟩ (sysPipe p page) := by
  have hclose (f : Fin NFILE) : KKeeps past w ⟨⟨false, B, L, R⟩, 0⟩ (fileclose f) :=
    keeps_fileclose (notMem_zero f)
  refine (keeps_pipealloc page).bind fun r => ?_
  cases r with
  | none => exact .pure
  | some q =>
    refine keeps_fdalloc.bind fun r => ?_
    cases r with
    | none => exact (hclose q.1).bind fun _ => (hclose q.2).bind fun _ => .pure
    | some fd0 =>
      refine keeps_fdalloc.bind fun r => ?_
      cases r with
      | none =>
        refine .bind (keeps_modifyProc fun _ => rfl) fun _ => (hclose q.1).bind fun _ => ?_
        exact (hclose q.2).bind fun _ => .pure
      | some fd1 => exact .pure

/-- `fork` takes a reference to the directory for the new process. -/
theorem sat_fork (hk : KAccount.Of past ⟨a, 0⟩ k) (p np : Fin NPROC) :
    Sat (Allowed w) (fork p np) k fun _ k' => ∃ c, KAccount.Of { past with cwd := c } ⟨a, 0⟩ k' := by
  refine (keeps_cwdOf k hk).bind fun cwd k0 h0 => sat_get_bind.2 (sat_require_bind.2 ⟨nofun, ?_⟩)
  intro hnp
  have hfiles : KKeeps past w ⟨a, 0⟩ (forkFiles p np) := by
    refine .forM fun fd => .get_bind fun k => ?_
    split
    · exact (keeps_filedup (notMem_zero _)).bind fun _ => keeps_modifyProc fun _ => rfl
    · exact .pure
  refine (hfiles k0 h0).bind fun _ k1 h1 => (moves_liftFs moves_idup k1 h1).bind fun cwd k2 h2 => ?_
  refine ⟨_, h2.setProc (q := { k2.proc np with cwd := some cwd }) (R := a.refs) ?_⟩
  rw [h2.cwd, ← h0.cwd, hnp]
  rfl

/-- `exit` gives up the reference of the process to its directory. -/
theorem sat_exit (hk : KAccount.Of past ⟨⟨false, B, L, R⟩, 0⟩ k) (p : Fin NPROC) :
    Sat (Allowed w) (Fs.exit p) k fun _ k' =>
      ∃ c, KAccount.Of { past with cwd := c } ⟨⟨false, B, L, R⟩, 0⟩ k' := by
  refine sat_get_bind.2 (sat_panicIf_bind.2 ⟨fun _ => allowed_panic (by decide), fun _ => ?_⟩)
  refine sat_cwdOf.bind fun cwd k0 h0 => ?_
  obtain ⟨rfl, hcwd⟩ := h0
  have hfiles : KKeeps past w ⟨⟨false, B, L, R⟩, 0⟩ (exitFiles p) := by
    refine .forM fun fd => .get_bind fun k => ?_
    split
    · exact (keeps_fileclose (notMem_zero _)).bind fun _ => keeps_modifyProc fun _ => rfl
    · exact .pure
  refine (hfiles k0 hk).bind fun _ k1 h1 => ?_
  refine (moves_release cwd k1 (KAccount.of_release.2 h1)).bind fun _ k2 h2 => ?_
  have h3 := h2.setProc (p := p) (q := { k2.proc p with cwd := none }) (R := cwd ::ₘ R) (by
    rw [h2.cwd, ← hk.cwd, hcwd]
    rfl)
  exact ⟨_, KAccount.of_release.1 h3⟩

theorem keeps_withCwd {m : Fin NINODE → TxM Int}
    (h : ∀ cwd {o : Past}, Keeps o w a (m cwd)) : KKeeps past w ⟨a, F⟩ (withCwd p m) :=
  keeps_cwdOf.bind fun cwd => moves_liftFs (h cwd)

theorem keeps_onPath {path : Option (List UInt8)} {m : Fin NINODE → List UInt8 → TxM Int}
    (h : ∀ cwd path {o : Past}, Keeps o w a (m cwd path)) :
    KKeeps past w ⟨a, F⟩ (onPath p path m) := by
  cases path with
  | none => exact .pure
  | some path => exact keeps_withCwd fun cwd => h cwd path

end

/-- Nothing is held. -/
def idle : KAccount := ⟨⟨false, 0, 0, 0⟩, 0⟩

/-- Nothing is held, and there are the references `extra` that nobody holds. -/
def Idle (ops : List LogOp) (extra : Fin NINODE → Int) (k : Kernel Sys) : Prop :=
  ∃ c, idle.Of ⟨ops, extra, c⟩ k

section
variable {w : Bool} {ops : List LogOp} {x : Fin NINODE → Int} {k : Kernel Sys}

/-- A `chmod`, `chown` or `chgrp` that succeeds leaves a reference to nobody. -/
theorem sat_onPath_chattr (hk : Idle ops x k) {p : Fin NPROC} {path : Option (List UInt8)}
    {f : Inode → Inode} (hf : ∀ ip, ((f ip).busy = true → ip.busy = true) ∧ (f ip).ref = ip.ref) :
    Sat (Allowed w) (onPath p path fun cwd path => chattr cwd path f) k fun r k' =>
      (r = 0 ∧ ∃ e, Idle ops (x + Pi.single e 1) k') ∨ (r ≠ 0 ∧ Idle ops x k') := by
  cases path with
  | none => exact .inr ⟨by decide, hk⟩
  | some path =>
    obtain ⟨c, hk⟩ := hk
    refine (keeps_cwdOf k hk).bind fun cwd k0 h0 => sat_zoom.2 ?_
    refine (sat_chattr h0.held cwd path hf).weaken fun r s' hs' => ?_
    rcases hs' with ⟨hr, e, hs'⟩ | ⟨hr, hs'⟩
    · have hk' : KAccount.Of ⟨ops, x, c⟩ ⟨⟨false, 0, 0, {e}⟩, 0⟩ { k0 with fs := s' } :=
        { h0 with held := hs' }
      exact .inl ⟨hr, e, c, KAccount.of_leave.1 hk'⟩
    · exact .inr ⟨hr, c, { h0 with held := hs' }⟩

/-- Every call gives back what it takes, if reads do, apart from those that leave a reference. -/
theorem sat_run (hk : Idle ops x k)
    (hread : ∀ f n r, Sat (Allowed w) (fileread f n r) k fun _ k' => Idle ops x k')
    (p : Fin NPROC) (call : Call) :
    Sat (Allowed w) (call.run p) k fun r k' =>
      (Step.Leaks ⟨p, call, r⟩ ∧ ∃ e, Idle ops (x + Pi.single e 1) k') ∨
        (¬ Step.Leaks ⟨p, call, r⟩ ∧ Idle ops x k') := by
  have hquiet {m : SysM Sys Int} (hcall : ∀ r, ¬ Step.Leaks ⟨p, call, r⟩)
      (hm : Sat (Allowed w) m k fun _ k' => Idle ops x k') :
      Sat (Allowed w) m k fun r k' =>
        (Step.Leaks ⟨p, call, r⟩ ∧ ∃ e, Idle ops (x + Pi.single e 1) k') ∨
          (¬ Step.Leaks ⟨p, call, r⟩ ∧ Idle ops x k') :=
    hm.weaken fun r k' h => .inr ⟨hcall r, h⟩
  obtain ⟨c, hi⟩ := id hk
  have hkeeps {m : SysM Sys Int} (hm : KKeeps ⟨ops, x, c⟩ w idle m) :
      Sat (Allowed w) m k fun _ k' => Idle ops x k' := (hm k hi).weaken fun _ _ h => ⟨c, h⟩
  cases call with
  | «open» path omode =>
    cases path with
    | none => exact hquiet (fun _ => id) hk
    | some path => exact hquiet (fun _ => id) (hkeeps (keeps_sysOpen p path omode))
  | close fd => exact hquiet (fun _ => id) (hkeeps keeps_sysClose)
  | read fd n r => exact hquiet (fun _ => id) (sat_onFile (fun _ f n => hread f n r) hk)
  | write fd buf r =>
    refine hquiet (fun _ => id) (sat_onFile (fun _ f buf => ?_) hk)
    exact hkeeps (keeps_filewrite (notMem_zero f) _ _ r)
  | fstat fd st => exact hquiet (fun _ => id) (hkeeps keeps_sysFstat)
  | link old new =>
    cases old with
    | none => exact hquiet (fun _ => id) hk
    | some old =>
      exact hquiet (fun _ => id) (hkeeps (keeps_onPath fun cwd new => keeps_sysLink cwd old new))
  | unlink path => exact hquiet (fun _ => id) (hkeeps (keeps_onPath fun cwd path => keeps_sysUnlink cwd path))
  | mkdir path =>
    exact hquiet (fun _ => id) (hkeeps (keeps_withCwd fun cwd => keeps_sysMkdir cwd path))
  | mknod args =>
    exact hquiet (fun _ => id) (hkeeps (keeps_withCwd fun cwd => keeps_sysMknod cwd args))
  | chdir path => exact hquiet (fun _ => id) (sat_sysChdir hi p path)
  | exec path env =>
    exact hquiet (fun _ => id) (hkeeps (keeps_onPath fun cwd path => keeps_exec cwd path env))
  | exit => exact hquiet (fun _ => id) (sat_exit hi p)
  | chmod path mode | chown path owner | chgrp path group =>
    exact sat_onPath_chattr hk fun _ => ⟨id, rfl⟩
  | dup fd => exact hquiet (fun _ => id) (hkeeps keeps_sysDup)
  | pipe page =>
    cases page with
    | none => exact hquiet (fun _ => id) hk
    | some page => exact hquiet (fun _ => id) (hkeeps (keeps_sysPipe p page))
  | fork np =>
    cases np with
    | none => exact hquiet (fun _ => id) hk
    | some np => exact hquiet (fun _ => id) (sat_fork hi p np)

end

end TronBoss.Txn
