import TronBoss.Syscall.Args

/-!
# The path arguments of the system calls

The ten calls that resolve a user path, with the helper each of them fetches its path with, and the
bytes that `namex` loads while it resolves one. `fetchstr` looks for the NUL below `sz`, so that a
path it accepts is resolved within the memory of the process (`namex_within`); `sys_chmod`,
`sys_chown` and `sys_chgrp` fetch theirs with `argptr`, which checks its first byte only.
-/

namespace TronBoss.Syscall

open Lib List
open Fs (slash)

/-! ## Loads -/

/-- A computation that loads bytes of user memory: the addresses in order, and the result. -/
structure Loads (α : Type) where
  addrs : List UInt32
  ret : Except Stop α

/-- Without a load. -/
def Loads.pure {α : Type} (a : α) : Loads α := ⟨[], .ok a⟩

def Loads.bind {α β : Type} (x : Loads α) (f : α → Loads β) : Loads β :=
  match x.ret with
  | .ok a => ⟨x.addrs ++ (f a).addrs, (f a).ret⟩
  | .error e => ⟨x.addrs, .error e⟩

instance : Monad Loads where
  pure := Loads.pure
  bind := Loads.bind

/-- The loop has run out of turns. -/
def Loads.diverge {α : Type} : Loads α := ⟨[], .error .diverge⟩

/-- `*p`. -/
def load (mem : UInt32 → UInt8) (p : UInt32) : Loads UInt8 := ⟨[p], .ok (mem p)⟩

/-- The loads are in a range, and the result has a property. -/
def Loads.Sat {α : Type} (x : Loads α) (lo hi : UInt32) (Q : α → Prop) : Prop :=
  (∀ a ∈ x.addrs, lo ≤ a ∧ a ≤ hi) ∧ ∀ v, x.ret = .ok v → Q v

section
variable {α β : Type} {x : Loads α} {f : α → Loads β} {lo hi : UInt32} {Q : α → Prop} {R : β → Prop}

theorem Loads.Sat.pure {a : α} (h : Q a) : (Pure.pure a : Loads α).Sat lo hi Q :=
  ⟨nofun, fun _ hv => by cases hv; exact h⟩

theorem Loads.Sat.diverge : (Loads.diverge : Loads α).Sat lo hi Q := ⟨nofun, nofun⟩

theorem Loads.Sat.bind (hx : x.Sat lo hi Q) (hf : ∀ v, Q v → (f v).Sat lo hi R) :
    (x >>= f).Sat lo hi R := by
  change (Loads.bind x f).Sat lo hi R
  obtain ⟨haddrs, hret⟩ := hx
  unfold Loads.bind
  split
  · next v hv =>
    obtain ⟨hfa, hfr⟩ := hf v (hret v hv)
    exact ⟨fun a ha => (mem_append.1 ha).elim (haddrs a) (hfa a), hfr⟩
  · exact ⟨haddrs, nofun⟩

theorem Loads.Sat.mono {Q' : α → Prop} (hx : x.Sat lo hi Q) (h : ∀ v, Q v → Q' v) :
    x.Sat lo hi Q' :=
  ⟨hx.1, fun v hv => h v (hx.2 v hv)⟩

theorem sat_load {mem : UInt32 → UInt8} {p : UInt32} (h1 : lo ≤ p) (h2 : p ≤ hi) :
    (load mem p).Sat lo hi fun b => b = mem p :=
  ⟨fun a ha => by rw [mem_singleton.1 ha]; exact ⟨h1, h2⟩, fun v hv => by cases hv; rfl⟩

end

/-! ## The resolution of a path -/

/-- `while(*path ...) path++;` -/
def skipWhile (mem : UInt32 → UInt8) (q : UInt8 → Bool) : Nat → UInt32 → Loads UInt32
  | 0, _ => .diverge
  | fuel + 1, path => do
    if q (← load mem path) then skipWhile mem q fuel (path + 1) else return path

/-- `memmove(name, s, k)`: the bytes it loads. -/
def loadBytes (mem : UInt32 → UInt8) : Nat → UInt32 → Loads (List UInt8)
  | 0, _ => return []
  | k + 1, s => do
    let b ← load mem s
    let bs ← loadBytes mem k (s + 1)
    return b :: bs

/-- `skipelem`: the rest of the path and the element, or null. -/
def skipelem (mem : UInt32 → UInt8) (fuel : Nat) (path : UInt32) :
    Loads (Option (UInt32 × List UInt8)) := do
  let path ← skipWhile mem (fun b => b = slash) fuel path
  if (← load mem path) = 0 then return none
  let s := path
  let path ← skipWhile mem (fun b => b ≠ slash ∧ b ≠ 0) fuel path
  let name ← loadBytes mem (min (path - s).toNat Fs.DIRSIZ) s
  let path ← skipWhile mem (fun b => b = slash) fuel path
  return some (path, name)

/-- The inodes that `namex` walks over: which are directories, and what they list. -/
structure Files (I : Type) where
  root : I
  cwd : I
  isDir : I → Bool
  dirlookup : I → List UInt8 → Option I

/-- `nameiparent && *path == '\0'`. -/
def atLast (mem : UInt32 → UInt8) (nameiparent : Bool) (path : UInt32) : Loads Bool :=
  if nameiparent then do
    let b ← load mem path
    return b = 0
  else return false

/-- The loop of `namex`. -/
def namexLoop {I : Type} (fs : Files I) (mem : UInt32 → UInt8) (nameiparent : Bool) (fuel : Nat) :
    Nat → I → UInt32 → Loads (Option I)
  | 0, _, _ => .diverge
  | turns + 1, ip, path => do
    match ← skipelem mem fuel path with
    | none => return if nameiparent then none else some ip
    | some (path, name) =>
      if !fs.isDir ip then return none
      else
        let last ← atLast mem nameiparent path
        if last then return some ip
        else
          match fs.dirlookup ip name with
          | none => return none
          | some next => namexLoop fs mem nameiparent fuel turns next path

/-- `namex`, with bounds for its loops. -/
def namex {I : Type} (fs : Files I) (mem : UInt32 → UInt8) (nameiparent : Bool) (fuel turns : Nat)
    (path : UInt32) : Loads (Option I) := do
  let b ← load mem path
  namexLoop fs mem nameiparent fuel turns (if b = slash then fs.root else fs.cwd) path

section
variable {mem : UInt32 → UInt8} {lo hi path : UInt32}

theorem succ_le {p : UInt32} (h : p ≤ hi) (hne : p ≠ hi) : p + 1 ≤ hi ∧ p ≤ p + 1 := by
  have hlt : p.toNat ≠ hi.toNat := fun e => hne (UInt32.toNat_inj.1 e)
  have := hi.toNat_lt
  simp only [UInt32.le_iff_toNat_le, UInt32.toNat_add, UInt32.toNat_one] at h ⊢
  omega

/-- A loop that stops at a NUL at the latest. -/
theorem sat_skipWhile (hnul : mem hi = 0) {q : UInt8 → Bool} (hq : q 0 = false) :
    ∀ {fuel : Nat} {p : UInt32}, lo ≤ p → p ≤ hi →
      (skipWhile mem q fuel p).Sat lo hi fun p' => p ≤ p' ∧ p' ≤ hi
  | 0, _, _, _ => .diverge
  | fuel + 1, p, hlo, hhi => by
    rw [skipWhile]
    refine (sat_load hlo hhi).bind fun b hb => ?_
    split
    · next hqb =>
      have hne : p ≠ hi := by
        rintro rfl
        rw [hb, hnul, hq] at hqb
        cases hqb
      obtain ⟨hle, hsucc⟩ := succ_le hhi hne
      refine (sat_skipWhile hnul hq (UInt32.le_trans hlo hsucc) hle).mono fun p' h => ?_
      exact ⟨UInt32.le_trans hsucc h.1, h.2⟩
    · exact .pure ⟨UInt32.le_refl p, hhi⟩

theorem sat_loadBytes : ∀ {k : Nat} {s : UInt32}, lo ≤ s → s.toNat + k ≤ hi.toNat →
    (loadBytes mem k s).Sat lo hi fun _ => True
  | 0, _, _, _ => .pure trivial
  | k + 1, s, hlo, hfit => by
    have hhi := hi.toNat_lt
    have hs : (s + 1).toNat = s.toNat + 1 := by
      rw [UInt32.toNat_add, UInt32.toNat_one, Nat.mod_eq_of_lt (by omega)]
    rw [loadBytes]
    refine (sat_load hlo (UInt32.le_iff_toNat_le.2 (by omega))).bind fun b _ => ?_
    refine (sat_loadBytes ?_ (by omega)).bind fun bs _ => .pure trivial
    rw [UInt32.le_iff_toNat_le] at hlo ⊢
    omega

/-- `skipelem` loads no byte past the NUL. -/
theorem sat_skipelem (hnul : mem hi = 0) {fuel : Nat} (hlo : lo ≤ path) (hhi : path ≤ hi) :
    (skipelem mem fuel path).Sat lo hi fun r => ∀ x ∈ r, lo ≤ x.1 ∧ x.1 ≤ hi := by
  have hslash : decide ((0 : UInt8) = slash) = false := rfl
  rw [skipelem]
  refine (sat_skipWhile hnul hslash hlo hhi).bind fun p1 h1 => ?_
  have hlo1 := UInt32.le_trans hlo h1.1
  refine (sat_load hlo1 h1.2).bind fun b _ => ?_
  split
  · exact .pure nofun
  · refine (sat_skipWhile hnul rfl hlo1 h1.2).bind fun p2 h2 => ?_
    refine (sat_loadBytes hlo1 ?_).bind fun name _ => ?_
    · have := UInt32.le_iff_toNat_le.1 h2.2
      have := UInt32.le_iff_toNat_le.1 h2.1
      rw [UInt32.toNat_sub_of_le _ _ h2.1]
      omega
    · have hlo2 := UInt32.le_trans hlo1 h2.1
      refine (sat_skipWhile hnul hslash hlo2 h2.2).bind fun p3 h3 => .pure ?_
      rintro x ⟨⟩
      exact ⟨UInt32.le_trans hlo2 h3.1, h3.2⟩

theorem sat_atLast {nameiparent : Bool} (hlo : lo ≤ path) (hhi : path ≤ hi) :
    (atLast mem nameiparent path).Sat lo hi fun _ => True := by
  unfold atLast
  split
  · exact (sat_load hlo hhi).bind fun b _ => .pure trivial
  · exact .pure trivial

/-- `namex` reads no byte behind the NUL of the path. -/
theorem sat_namexLoop {I : Type} (fs : Files I) (hnul : mem hi = 0) (nameiparent : Bool)
    (fuel : Nat) : ∀ {turns : Nat} {ip : I} {path : UInt32}, lo ≤ path → path ≤ hi →
      (namexLoop fs mem nameiparent fuel turns ip path).Sat lo hi fun _ => True
  | 0, _, _, _, _ => .diverge
  | turns + 1, ip, path, hlo, hhi => by
    rw [namexLoop]
    refine (sat_skipelem hnul hlo hhi).bind fun r hr => ?_
    split
    · exact .pure trivial
    · next p name =>
      obtain ⟨hlo', hhi'⟩ := hr (p, name) rfl
      split
      · exact .pure trivial
      · refine (sat_atLast hlo' hhi').bind fun last _ => ?_
        split
        · exact .pure trivial
        · split
          · exact .pure trivial
          · exact sat_namexLoop fs hnul nameiparent fuel hlo' hhi'

/-- The resolution of a path with a NUL loads no byte past it. -/
theorem namex_within {I : Type} (fs : Files I) (hnul : mem hi = 0)
    (hhi : path ≤ hi) (nameiparent : Bool) (fuel turns : Nat) :
    ∀ a ∈ (namex fs mem nameiparent fuel turns path).addrs, path ≤ a ∧ a ≤ hi := by
  have hle := UInt32.le_refl path
  exact ((sat_load hle hhi).bind fun b _ => sat_namexLoop fs hnul nameiparent fuel
    hle hhi).1

end

/-! ## The calls -/

/-- The system calls that resolve a user path. -/
inductive PathCall where
  | «open» | link | unlink | mkdir | mknod | chdir | exec | chmod | chown | chgrp
  deriving DecidableEq, Repr

/-- `MAXARG` of `param.h`. -/
def MAXARG : Nat := 32

/-- The loop of `sys_exec` over `argv`, from the index `i` on. -/
def execArgv (m : Image) (uargv : UInt32) : Nat → Nat → Option Unit
  | 0, _ => none
  | left + 1, i => do
    let uarg ← fetchint m (uargv + 4 * UInt32.ofNat i)
    if uarg = 0 then return ()
    let _ ← fetchstr m uarg
    execArgv m uargv left (i + 1)

/-- `sizeof(*pathname)`. -/
def sizeofChar : Int32 := 1

/-- The argument checks of `sys_chmod`, `sys_chown` and `sys_chgrp`. -/
def fetchPathnameInt (m : Image) : Option (List UInt32) := do
  let pathname ← argptr m 0 sizeofChar
  let _ ← argint m 1
  return [pathname]

/-- The argument checks of a call: the paths that it goes on to resolve. -/
def PathCall.fetch (m : Image) : PathCall → Option (List UInt32)
  | .open => do
    let (path, _) ← argstr m 0
    let _ ← argint m 1
    return [path]
  | .link => do
    let (old, _) ← argstr m 0
    let (new, _) ← argstr m 1
    return [old, new]
  | .unlink | .mkdir | .chdir => do
    let (path, _) ← argstr m 0
    return [path]
  | .mknod => do
    let (path, _) ← argstr m 0
    let _ ← argint m 1
    let _ ← argint m 2
    return [path]
  | .exec => do
    let (path, _) ← argstr m 0
    let uargv ← argint m 1
    execArgv m uargv MAXARG 0
    return [path]
  | .chmod | .chown | .chgrp => fetchPathnameInt m

/-- The call fetches its path with `argptr`. -/
def PathCall.byPointer : PathCall → Bool
  | .chmod | .chown | .chgrp => true
  | _ => false

/-- The validation of the path arguments: when the checks succeed, every path has its NUL below
`sz`, and its resolution in any file system loads bytes of the process only. -/
def PathCall.Validates (call : PathCall) (m : Image) : Prop :=
  ∀ paths, call.fetch m = some paths → ∀ path ∈ paths, m.NulFrom path ∧
    ∀ (I : Type) (fs : Files I) (nameiparent : Bool) (fuel turns : Nat),
      ∀ a ∈ (namex fs m.mem nameiparent fuel turns path).addrs, path ≤ a ∧ a < m.sz

section
variable {m : Image} {call : PathCall}

/-- A call that fetches its paths with `argstr` gets strings. -/
theorem fetch_nul (hs : call.byPointer = false) {paths : List UInt32}
    (h : call.fetch m = some paths) : ∀ path ∈ paths, m.NulFrom path := by
  cases call with
  | «open» =>
    obtain ⟨⟨path, len⟩, hp, h⟩ := Option.bind_eq_some_iff.1 h
    obtain ⟨_, -, h⟩ := Option.bind_eq_some_iff.1 h
    cases h
    exact forall_mem_singleton.2 (argstr_nul hp)
  | link =>
    obtain ⟨⟨old, len⟩, ho, h⟩ := Option.bind_eq_some_iff.1 h
    obtain ⟨⟨new, len'⟩, hn, h⟩ := Option.bind_eq_some_iff.1 h
    cases h
    exact forall_mem_cons.2 ⟨argstr_nul ho, forall_mem_singleton.2 (argstr_nul hn)⟩
  | unlink | mkdir | chdir =>
    obtain ⟨⟨path, len⟩, hp, h⟩ := Option.bind_eq_some_iff.1 h
    cases h
    exact forall_mem_singleton.2 (argstr_nul hp)
  | mknod | exec =>
    obtain ⟨⟨path, len⟩, hp, h⟩ := Option.bind_eq_some_iff.1 h
    obtain ⟨_, -, h⟩ := Option.bind_eq_some_iff.1 h
    obtain ⟨_, -, h⟩ := Option.bind_eq_some_iff.1 h
    cases h
    exact forall_mem_singleton.2 (argstr_nul hp)
  | chmod | chown | chgrp => cases hs

/-- Paths with a NUL below `sz` are resolved within the memory of the process. -/
theorem validates_of_nul (h : ∀ paths, call.fetch m = some paths → ∀ path ∈ paths, m.NulFrom path) :
    call.Validates m := by
  refine fun paths hp path hpath => ⟨h paths hp path hpath, fun I fs nameiparent fuel turns a ha => ?_⟩
  obtain ⟨hi, hle, hlt, h0⟩ := h paths hp path hpath
  obtain ⟨h₁, h₂⟩ := namex_within fs h0 hle nameiparent fuel turns a ha
  exact ⟨h₁, UInt32.lt_of_le_of_lt h₂ hlt⟩

/-- What `sys_chmod`, `sys_chown` and `sys_chgrp` ask of their first argument. -/
theorem fetch_byPointer (hb : call.byPointer = true) {paths : List UInt32} :
    call.fetch m = some paths ↔ ∃ path mode, argint m 0 = some path ∧ argint m 1 = some mode ∧
      path < m.sz ∧ paths = [path] := by
  have hfetch : call.fetch m = fetchPathnameInt m := by
    cases call with
    | chmod | chown | chgrp => rfl
    | _ => cases hb
  have hptr (path : UInt32) : File.argptr m.sz path sizeofChar = true ↔ path < m.sz := by
    have h1 : sizeofChar.toUInt32 = 1 := rfl
    simp [File.argptr, h1, UInt32.le_iff_toNat_le, UInt32.lt_iff_toNat_lt]
    omega
  simp only [hfetch, fetchPathnameInt, argptr, Option.bind_eq_bind, Option.bind_eq_some_iff]
  constructor
  · rintro ⟨path, ⟨i, hi, hpath⟩, mode, hmode, hp⟩
    split at hpath
    · next hok =>
      cases hpath
      cases hp
      exact ⟨path, mode, hi, hmode, (hptr path).1 hok, rfl⟩
    · cases hpath
  · rintro ⟨path, mode, hi, hmode, hlt, rfl⟩
    exact ⟨path, ⟨path, hi, if_pos ((hptr path).2 hlt)⟩, mode, hmode, rfl⟩

/-- A process of one page with the stack at 100: the first argument points to the last byte of the
page, and no byte there or in the next four is a NUL. -/
def lastByteImage : Image where
  mem a := if a = 104 then 255 else if a = 105 then 15 else if a = 106 ∨ a = 107 then 0
    else if a < 4100 then 97 else 0
  sz := 4096
  esp := 100

/-- The calls that fetch their path with `argptr` take one without a NUL. -/
theorem not_validates_lastByte (hb : call.byPointer = true) : ¬ call.Validates lastByteImage := by
  intro h
  have hfetch : call.fetch lastByteImage = some [4095] :=
    (fetch_byPointer hb).2 ⟨4095, 0x61616161, by decide, by decide, by decide, rfl⟩
  obtain ⟨a, hle, hlt, h0⟩ := (h _ hfetch 4095 mem_cons_self).1
  have ha : a = 4095 := by
    change a < 4096 at hlt
    rw [UInt32.le_iff_toNat_le] at hle
    rw [UInt32.lt_iff_toNat_lt] at hlt
    exact UInt32.toNat_inj.1 (by simp only [UInt32.reduceToNat] at *; omega)
  rw [ha] at h0
  exact absurd h0 (by decide)

/-- A call validates its paths in every process exactly if it fetches them with `argstr`. The other
three calls do so in a process exactly if the bytes from the path on have a NUL below `sz`, where the
arguments can be fetched and the path is below `sz`. -/
theorem paths_validated_iff (call : PathCall) :
    ((∀ m, call.Validates m) ↔ call.byPointer = false) ∧
    (call.byPointer = true → ∀ m : Image, call.Validates m ↔ ∀ path mode,
      argint m 0 = some path → argint m 1 = some mode → path < m.sz → m.NulFrom path) := by
  refine ⟨⟨fun h => ?_, fun hb m => validates_of_nul fun _ => fetch_nul hb⟩, fun hb m => ⟨?_, ?_⟩⟩
  · cases hb : call.byPointer with
    | false => rfl
    | true => exact absurd (h lastByteImage) (not_validates_lastByte hb)
  · intro h path mode hp hmode hlt
    exact (h _ ((fetch_byPointer hb).2 ⟨path, mode, hp, hmode, hlt, rfl⟩) path mem_cons_self).1
  · refine fun h => validates_of_nul fun paths hp path hpath => ?_
    obtain ⟨path', mode, hp', hmode, hlt, rfl⟩ := (fetch_byPointer hb).1 hp
    cases mem_singleton.1 hpath
    exact h path mode hp' hmode hlt

end

/-- A file system with one directory, in which every name is found. -/
def loopFiles : Files Unit where
  root := ()
  cwd := ()
  isDir _ := true
  dirlookup _ _ := some ()

/-- `chmod`, `chown` and `chgrp` of the last byte resolve a path that goes on past the memory of the
process. -/
theorem chmod_path_unterminated :
    lastByteImage.sz = 4096 ∧ 4096 ∈ (namex loopFiles lastByteImage.mem false 10 10 4095).addrs ∧
      ∀ call ∈ [PathCall.chmod, .chown, .chgrp],
        call.fetch lastByteImage = some [4095] ∧ ¬ call.Validates lastByteImage := by
  have hread : 4096 ∈ (namex loopFiles lastByteImage.mem false 10 10 4095).addrs := by
    decide +kernel
  have hcalls : ∀ call ∈ [PathCall.chmod, .chown, .chgrp],
      call.fetch lastByteImage = some [4095] ∧ call.byPointer = true := by
    decide
  exact ⟨rfl, hread, fun call hc => ⟨(hcalls call hc).1, not_validates_lastByte (hcalls call hc).2⟩⟩

end TronBoss.Syscall
