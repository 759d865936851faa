/-
SystemsStudy/Kvm/Bringup.lean

`vmm.rs`: a VM from `Vm::new` to the end of its scope.

Bring-up is a chain of file descriptors and mappings, each from the one before,
and every call on the way may fail.  What was opened so far is then released in
the reverse order, and the fields of a `Vm` that is dropped are released in the
order of their declaration.  The two orders differ: the vCPU is closed before
guest RAM is unmapped in the one and after it in the other, so what both keep to
is what the documentation of `Vm` asks for.

The host keeps a registry of what is held: the `kvm_run` page ends within the
vCPU fd, this and guest RAM within the VM fd, and that within the fd of
`/dev/kvm`.  A call is legal on a descriptor that is held and of its kind, and a
release only where nothing is left to end within.  The calls of a run of VMs are
legal, and they leave what was held before (`lifetimes_balanced`).
-/
import SystemsStudy.Kvm.Run
import SystemsStudy.Lib.Resource

namespace SystemsStudy.Kvm

open Resource

/-- Guest physical address of the scratch pages for real mode. -/
def tssAddr : ℕ := 0xfffbd000

/-- The only API version the program accepts. -/
def expectedApiVersion : ℕ := 12

/-- The capability to back guest memory by a mapping of the process. -/
def kvmCapUserMemory : ℕ := 3

/-- The size of `kvm_run_header`. -/
def kvmRunHeaderSize : ℕ := 32

/-- The argument of `KVM_SET_USER_MEMORY_REGION`. -/
structure KvmUserspaceMemoryRegion where
  slot : ℕ := 0
  flags : ℕ := 0
  guestPhysAddr : ℕ := 0
  memorySize : ℕ
  userspaceAddr : ℕ

/-- The requests of `ioctl`, those on the vCPU without their structures. -/
inductive Request where
  | getApiVersion
  | createVm (machineType : ℕ)
  | checkExtension (cap : ℕ)
  | getVcpuMmapSize
  | setUserMemoryRegion (region : KvmUserspaceMemoryRegion)
  | setTssAddr (addr : ℕ)
  | createVcpu (id : ℕ)
  | run
  | getRegs
  | setRegs
  | getSregs
  | setSregs

/-- The system calls of a VM, from `open` to `close`. -/
inductive HostCall where
  /-- `open` of `/dev/kvm` -/
  | openKvm
  | ioctl (fd : ℕ) (req : Request)
  | mmapAnonymous (len : ℕ)
  | mmapShared (fd len : ℕ)
  | munmap (ptr len : ℕ)
  | close (fd : ℕ)

/-- The errno of a call that failed, or what it returned. -/
abbrev Answer := Except ℤ ℕ

/-! ### Bring-up and drop -/

/-- An owned `mmap` region. -/
structure Mapping where
  ptr : ℕ
  len : ℕ

/-- The fields of a `Vm`, in their order. -/
structure OpenVm where
  runMap : Mapping
  mem : Mapping
  vcpu : ℕ
  vm : ℕ
  kvm : ℕ
  memSize : ℕ

/-- A program that makes system calls. -/
abbrev VmProg (α : Type) := Prog HostCall Answer α

/-- One that may return early with a `RunError`. -/
abbrev VmAttempt (α : Type) := Attempt HostCall Answer RunError α

/-- A system call whose failure is an error. -/
def sys (c : HostCall) : VmAttempt ℕ :=
  .call c fun
    | .ok v => .ret (.ok v)
    | .error e => .ret (.error (.os e))

/-- Confirm that this is KVM, and that userspace may supply the memory. -/
def checkKvm (kvm : ℕ) : VmAttempt Unit := do
  let version ← sys (.ioctl kvm .getApiVersion)
  if version ≠ expectedApiVersion then
    throw (.other ("unexpected KVM API version " ++ toString version ++ ", expected " ++
      toString expectedApiVersion))
  let hasUserMem ← sys (.ioctl kvm (.checkExtension kvmCapUserMemory))
  if hasUserMem = 0 then throw (.other "KVM_CAP_USER_MEMORY unsupported")

/-- Map the communication page; its size is a property of the kernel. -/
def mapRunPage (kvm vcpu : ℕ) : VmAttempt Mapping := do
  let runSize ← sys (.ioctl kvm .getVcpuMmapSize)
  if runSize < kvmRunHeaderSize then
    throw (.other ("implausible kvm_run size " ++ toString runSize))
  let ptr ← sys (.mmapShared vcpu runSize)
  return { ptr, len := runSize }

/-- Create the vCPU and map its page. -/
def addVcpu (kvm vm : ℕ) : VmAttempt (ℕ × Mapping) := do
  let vcpu ← sys (.ioctl vm (.createVcpu 0))
  owning (.close vcpu) do
    let runMap ← mapRunPage kvm vcpu
    return (vcpu, runMap)

/-- `Vm::new`, past its assertion. -/
def bringUp (memSize : ℕ) : VmAttempt OpenVm := do
  let kvm ← sys .openKvm
  owning (.close kvm) do
    checkKvm kvm
    let vm ← sys (.ioctl kvm (.createVm 0))
    owning (.close vm) do
      -- not fatal: harmless with unrestricted guest
      let _ ← ExceptT.lift (Prog.perform (.ioctl vm (.setTssAddr tssAddr)))
      let mem ← sys (.mmapAnonymous memSize)
      owning (.munmap mem memSize) do
        let _ ← sys (.ioctl vm (.setUserMemoryRegion
          { memorySize := memSize, userspaceAddr := mem }))
        let (vcpu, runMap) ← addVcpu kvm vm
        return { runMap, mem := { ptr := mem, len := memSize }, vcpu, vm, kvm, memSize }

/-- `Vm::new`; a size that is no number of pages is a panic. -/
def Vm.new (memSize : ℕ) : Option (VmAttempt OpenVm) :=
  if memSize % 4096 = 0 ∧ 0 < memSize then some (bringUp memSize) else none

/-- The fields are dropped in their order. -/
def OpenVm.drop (v : OpenVm) : VmProg Unit :=
  .call (.munmap v.runMap.ptr v.runMap.len) fun _ =>
    .call (.munmap v.mem.ptr v.mem.len) fun _ =>
      .call (.close v.vcpu) fun _ =>
        .call (.close v.vm) fun _ => .call (.close v.kvm) fun _ => .ret ()

/-- A scope with a VM in it: the VM is made, used and dropped. -/
def lifetime (new : VmAttempt OpenVm) (use : OpenVm → VmAttempt Unit) : VmAttempt Unit := do
  let v ← new
  (use v).run.bind fun result => v.drop.bind fun _ => .ret result

/-- One VM after the other, until one fails. -/
def lifetimes (new : VmAttempt OpenVm) : List (OpenVm → VmAttempt Unit) → VmAttempt Unit
  | [] => pure ()
  | use :: uses => do
      lifetime new use
      lifetimes new uses

/-! ### The host -/

/-- What the process holds: a descriptor, or a mapping by its address. -/
inductive HostResource where
  | fd (n : ℕ)
  | map (ptr : ℕ)
  deriving DecidableEq

theorem HostResource.map_ne_fd {ptr n : ℕ} : HostResource.map ptr ≠ .fd n := nofun

theorem HostResource.fd_ne_map {ptr n : ℕ} : HostResource.fd n ≠ .map ptr := nofun

/-- What a descriptor or a mapping is of. -/
inductive Kind where
  | kvm
  | vm
  | vcpu
  | ram (len : ℕ)
  | runPage (len : ℕ)
  /-- anything else the process holds -/
  | other

/-- All that the process holds. -/
abbrev Held := Registry HostResource Kind

/-- The descriptor a request is for. -/
def Request.kind : Request → Kind
  | getApiVersion | createVm _ | checkExtension _ | getVcpuMmapSize => .kvm
  | setUserMemoryRegion _ | setTssAddr _ | createVcpu _ => .vm
  | run | getRegs | setRegs | getSregs | setSregs => .vcpu

/-- The process holds this, and it is of that kind. -/
def HasKind (r : Held) (x : HostResource) (kind : Kind) : Prop :=
  ∃ e, r.held x = some e ∧ e.kind = kind

/-- The vCPU can be entered: its page is mapped, and its VM has memory. -/
def Enterable (r : Held) (vcpu : ℕ) : Prop :=
  (∃ page e len, r.held (.map page) = some e ∧ e.kind = .runPage len ∧
    kvmRunHeaderSize ≤ len ∧ .fd vcpu ∈ e.within) ∧
  ∃ e vm, r.held (.fd vcpu) = some e ∧ .fd vm ∈ e.within ∧
    ∃ ram e' len, r.held (.map ram) = some e' ∧ e'.kind = .ram len ∧ .fd vm ∈ e'.within

/-- What a request needs beside its descriptor. -/
def Request.Ready (r : Held) (fd : ℕ) : Request → Prop
  | setUserMemoryRegion region =>
      HasKind r (.map region.userspaceAddr) (.ram region.memorySize)
  | run => Enterable r fd
  | _ => True

namespace HostCall

/-- A call the documentation of `Vm` allows. -/
def Legal (r : Held) : HostCall → Prop
  | openKvm => True
  | ioctl fd req => HasKind r (.fd fd) req.kind ∧ req.Ready r fd
  | mmapAnonymous _ => True
  | mmapShared fd _ => HasKind r (.fd fd) .vcpu
  | munmap ptr len => r.Releasable (.map ptr) ∧
      (HasKind r (.map ptr) (.ram len) ∨ HasKind r (.map ptr) (.runPage len))
  | close fd => r.Releasable (.fd fd)

/-- What is held after a call that returned `v`.  What is new was not in use. -/
def Returned (r : Held) (v : ℕ) : HostCall → Held → Prop
  | openKvm, r' => r.held (.fd v) = none ∧ r' = r.acquire (.fd v) ⟨.kvm, []⟩
  | ioctl fd (.createVm _), r' =>
      r.held (.fd v) = none ∧ r' = r.acquire (.fd v) ⟨.vm, [.fd fd]⟩
  | ioctl fd (.createVcpu _), r' =>
      r.held (.fd v) = none ∧ r' = r.acquire (.fd v) ⟨.vcpu, [.fd fd]⟩
  | ioctl fd (.setUserMemoryRegion region), r' =>
      r' = r.confine (.map region.userspaceAddr) (.fd fd)
  | ioctl _ _, r' => r' = r
  | mmapAnonymous len, r' => r.held (.map v) = none ∧ r' = r.acquire (.map v) ⟨.ram len, []⟩
  | mmapShared fd len, r' =>
      r.held (.map v) = none ∧ r' = r.acquire (.map v) ⟨.runPage len, [.fd fd]⟩
  | munmap ptr _, r' => r' = r.release (.map ptr)
  | close fd, r' => r' = r.release (.fd fd)

/-- A call that failed did nothing, but for a release. -/
def Failed (r : Held) : HostCall → Held → Prop
  | munmap ptr _, r' => r' = r.release (.map ptr)
  | close fd, r' => r' = r.release (.fd fd)
  | _, r' => r' = r

/-- Any call may fail. -/
def Answers (r : Held) (c : HostCall) : Answer → Held → Prop
  | .ok v, r' => c.Returned r v r'
  | .error _, r' => c.Failed r r'

end HostCall

/-- The operating system, with KVM. -/
def kernel : Host HostCall Answer Held where
  Legal := HostCall.Legal
  Answers := HostCall.Answers

/-! ### Calls -/

section Calls

variable {r : Held} {α : Type} {Q : α → Held → Prop} {E : RunError → Held → Prop}

theorem releases_close (fd : ℕ) (kind : Kind) :
    kernel.Releases (.close fd) (.fd fd) kind where
  legal hx _ _ := hx
  answers {r a r'} h := by
    cases a with
    | ok => exact h
    | error => exact h

theorem releases_munmap (ptr len : ℕ) {kind : Kind}
    (hkind : kind = .ram len ∨ kind = .runPage len) :
    kernel.Releases (.munmap ptr len) (.map ptr) kind where
  legal hx he hk := ⟨hx, hkind.imp (fun h => ⟨_, he, hk.trans h⟩) fun h => ⟨_, he, hk.trans h⟩⟩
  answers {r a r'} h := by
    cases a with
    | ok => exact h
    | error => exact h

/-- A call of `?`: legal, and what follows its answers. -/
theorem ensures_sys {c : HostCall} {f : ℕ → VmAttempt α} (hlegal : HostCall.Legal r c)
    (herror : ∀ e r', c.Failed r r' → E e r')
    (hok : ∀ v r', c.Returned r v r' → kernel.Ensures (f v).run (Host.Either Q E) r') :
    kernel.Ensures (sys c >>= f).run (Host.Either Q E) r := by
  refine Host.ensures_try.mpr ⟨hlegal, fun x r' hans => ?_⟩
  cases x with
  | ok v => exact hok v r' hans
  | error e => exact herror _ r' hans

end Calls

/-! ### What is held -/

namespace OpenVm

variable (v : OpenVm) (r : Held)

/-- Held once `/dev/kvm` is open, -/
def withKvm : Held := r.acquire (.fd v.kvm) ⟨.kvm, []⟩

/-- once the VM is there, -/
def withVm : Held := (v.withKvm r).acquire (.fd v.vm) ⟨.vm, [.fd v.kvm]⟩

/-- once guest RAM is mapped and installed in it, -/
def withMem : Held := (v.withVm r).acquire (.map v.mem.ptr) ⟨.ram v.mem.len, [.fd v.vm]⟩

/-- once the VM has its vCPU, -/
def withVcpu : Held := (v.withMem r).acquire (.fd v.vcpu) ⟨.vcpu, [.fd v.vm]⟩

/-- and once the page of the vCPU is mapped. -/
def withRunMap : Held :=
  (v.withVcpu r).acquire (.map v.runMap.ptr) ⟨.runPage v.runMap.len, [.fd v.vcpu]⟩

end OpenVm

/-- A VM holds what it opened, and nothing of it was held before. -/
structure Opened (r : Held) (memSize : ℕ) (v : OpenVm) (r' : Held) : Prop where
  kvm : r.held (.fd v.kvm) = none
  vm : (v.withKvm r).held (.fd v.vm) = none
  mem : (v.withVm r).held (.map v.mem.ptr) = none
  vcpu : (v.withMem r).held (.fd v.vcpu) = none
  runMap : (v.withVcpu r).held (.map v.runMap.ptr) = none
  len : v.mem.len = memSize
  size : v.memSize = memSize
  header : kvmRunHeaderSize ≤ v.runMap.len
  held : r' = v.withRunMap r

theorem HasKind.ne_none {r : Held} {x : HostResource} {kind : Kind} (h : HasKind r x kind) :
    r.held x ≠ none := by
  obtain ⟨e, he, -⟩ := h
  rw [he]
  exact nofun

theorem hasKind_acquire {r : Held} {x : HostResource} {e : Entry HostResource Kind} :
    HasKind (r.acquire x e) x e.kind :=
  ⟨e, Registry.held_acquire_self, rfl⟩

/-- What is held keeps its kind when something new is acquired. -/
theorem HasKind.acquire {r : Held} {x y : HostResource} {e : Entry HostResource Kind} {kind : Kind}
    (h : HasKind r x kind) (hy : r.held y = none) : HasKind (r.acquire y e) x kind := by
  have hne : x ≠ y := by
    rintro rfl
    exact h.ne_none hy
  obtain ⟨e', he', hkind⟩ := h
  exact ⟨e', (Registry.held_acquire_of_ne hne).trans he', hkind⟩

section Opening

variable {r : Held} {α : Type} {Q : α → Held → Prop} {E : RunError → Held → Prop} {memSize : ℕ}

/-- The scratch pages are set, or not; nothing depends on it. -/
theorem ensures_setTssAddr {vm : ℕ} {f : Answer → VmAttempt α} (hvm : HasKind r (.fd vm) .vm)
    (hf : ∀ x, kernel.Ensures (f x).run (Host.Either Q E) r) :
    kernel.Ensures (ExceptT.lift (Prog.perform (.ioctl vm (.setTssAddr tssAddr))) >>= f).run
      (Host.Either Q E) r := by
  refine Host.ensures_try.mpr ⟨⟨hvm, trivial⟩, fun x r' hans => ?_⟩
  cases x with
  | ok v =>
      obtain rfl : r' = r := hans
      exact hf _
  | error e =>
      obtain rfl : r' = r := hans
      exact hf _

theorem checkKvm_keeps {kvm : ℕ} {f : Unit → VmAttempt α} (hkvm : HasKind r (.fd kvm) .kvm)
    (herror : ∀ e, E e r) (hf : kernel.Ensures (f ()).run (Host.Either Q E) r) :
    kernel.Ensures (checkKvm kvm >>= f).run (Host.Either Q E) r := by
  refine Host.ensures_try.mpr ?_
  refine ensures_sys ⟨hkvm, trivial⟩ (fun e _ h => h ▸ herror e) fun version r₁ hversion => ?_
  obtain rfl : r₁ = r := hversion
  split
  · exact herror _
  refine ensures_sys ⟨hkvm, trivial⟩ (fun e _ h => h ▸ herror e) fun hasUserMem r₂ hcap => ?_
  obtain rfl : r₂ = r₁ := hcap
  split
  · exact herror _
  · exact hf

theorem mapRunPage_maps {kvm vcpu : ℕ} {f : Mapping → VmAttempt α}
    (hkvm : HasKind r (.fd kvm) .kvm) (hvcpu : HasKind r (.fd vcpu) .vcpu) (herror : ∀ e, E e r)
    (hf : ∀ m : Mapping, r.held (.map m.ptr) = none → kvmRunHeaderSize ≤ m.len →
      kernel.Ensures (f m).run (Host.Either Q E)
        (r.acquire (.map m.ptr) ⟨.runPage m.len, [.fd vcpu]⟩)) :
    kernel.Ensures (mapRunPage kvm vcpu >>= f).run (Host.Either Q E) r := by
  refine Host.ensures_try.mpr ?_
  refine ensures_sys ⟨hkvm, trivial⟩ (fun e _ h => h ▸ herror e) fun runSize r₁ hsize => ?_
  obtain rfl : r₁ = r := hsize
  split
  · exact herror _
  next hheader =>
    refine ensures_sys hvcpu (fun e _ h => h ▸ herror e) fun ptr r₂ hmap => ?_
    obtain ⟨hfresh, rfl⟩ := hmap
    exact hf ⟨ptr, runSize⟩ hfresh (Nat.not_lt.mp hheader)

theorem addVcpu_adds {kvm vm : ℕ} {f : ℕ × Mapping → VmAttempt α} (hr : r.Valid)
    (hkvm : HasKind r (.fd kvm) .kvm) (hvm : HasKind r (.fd vm) .vm)
    (hf : ∀ (vcpu : ℕ) (m : Mapping), r.held (.fd vcpu) = none →
      (r.acquire (.fd vcpu) ⟨.vcpu, [.fd vm]⟩).held (.map m.ptr) = none →
      kvmRunHeaderSize ≤ m.len →
      kernel.Ensures (f (vcpu, m)).run (Host.Either Q fun _ r' => r' = r)
        ((r.acquire (.fd vcpu) ⟨.vcpu, [.fd vm]⟩).acquire (.map m.ptr)
          ⟨.runPage m.len, [.fd vcpu]⟩)) :
    kernel.Ensures (addVcpu kvm vm >>= f).run (Host.Either Q fun _ r' => r' = r) r := by
  refine Host.ensures_try.mpr ?_
  refine ensures_sys ⟨hvm, trivial⟩ (fun _ _ h => h) fun vcpu _ hcreate => ?_
  obtain ⟨hvcpu, rfl⟩ := hcreate
  have hself : HostResource.fd vcpu ∉ [HostResource.fd vm] := by
    rw [List.mem_singleton]
    intro heq
    exact hvm.ne_none (heq ▸ hvcpu)
  refine ensures_owning_same (e := ⟨.vcpu, [.fd vm]⟩) (releases_close vcpu .vcpu) hr hvcpu hself ?_
  exact mapRunPage_maps (hkvm.acquire hvcpu) hasKind_acquire (fun _ => rfl)
    fun m hfresh hheader => hf vcpu m hvcpu hfresh hheader

theorem bringUp_opens (hr : r.Valid) :
    kernel.Ensures (bringUp memSize).run (Host.Either (Opened r memSize) fun _ r' => r' = r) r := by
  unfold bringUp
  refine ensures_sys trivial (fun _ _ h => h) fun kvm _ hopen => ?_
  obtain ⟨hkvm, rfl⟩ := hopen
  refine ensures_owning_same (releases_close kvm .kvm) hr hkvm List.not_mem_nil ?_
  have hvalid₁ : (r.acquire (.fd kvm) ⟨.kvm, []⟩).Valid := Registry.valid_acquire hr nofun
  have hkvm₁ : HasKind (r.acquire (.fd kvm) ⟨.kvm, []⟩) (.fd kvm) .kvm := hasKind_acquire
  set r₁ := r.acquire (.fd kvm) ⟨.kvm, []⟩
  refine checkKvm_keeps hkvm₁ (fun _ => rfl) ?_
  refine ensures_sys ⟨hkvm₁, trivial⟩ (fun _ _ h => h) fun vm _ hcreate => ?_
  obtain ⟨hvm, rfl⟩ := hcreate
  have hself : HostResource.fd vm ∉ [HostResource.fd kvm] :=
    List.mem_singleton.not.mpr (Registry.ne_of_fresh hvm)
  refine ensures_owning_same (releases_close vm .vm) hvalid₁ hvm hself ?_
  have hvalid₂ : (r₁.acquire (.fd vm) ⟨.vm, [.fd kvm]⟩).Valid :=
    Registry.valid_acquire hvalid₁ (List.forall_mem_singleton.mpr hkvm₁.ne_none)
  have hvm₂ : HasKind (r₁.acquire (.fd vm) ⟨.vm, [.fd kvm]⟩) (.fd vm) .vm := hasKind_acquire
  have hkvm₂ : HasKind (r₁.acquire (.fd vm) ⟨.vm, [.fd kvm]⟩) (.fd kvm) .kvm := hkvm₁.acquire hvm
  set r₂ := r₁.acquire (.fd vm) ⟨.vm, [.fd kvm]⟩
  refine ensures_setTssAddr hvm₂ fun _ => ?_
  refine ensures_sys trivial (fun _ _ h => h) fun mem _ hmap => ?_
  obtain ⟨hmem, rfl⟩ := hmap
  refine ensures_owning (releases_munmap mem memSize (.inl rfl)) hvalid₂ hmem ?_
  refine ensures_sys ⟨hvm₂.acquire hmem, hasKind_acquire⟩
    (fun _ _ h => ⟨_, rfl, List.not_mem_nil, h⟩) fun _ _ hregion => ?_
  -- the memory now has to end within the VM
  rw [show _ = _ from hregion, Registry.confine_acquire]
  refine Host.Ensures.weaken (addVcpu_adds ?_ (hkvm₂.acquire hmem) (hvm₂.acquire hmem)
    fun vcpu m hvcpu hfresh hheader => ?_) fun _ _ h =>
      ⟨⟨.ram memSize, [.fd vm]⟩, rfl, List.mem_singleton.not.mpr nofun, h⟩
  · exact Registry.valid_acquire hvalid₂ (List.forall_mem_singleton.mpr hvm₂.ne_none)
  · exact
      { kvm := hkvm
        vm := hvm
        mem := hmem
        vcpu := hvcpu
        runMap := hfresh
        len := rfl
        size := rfl
        header := hheader
        held := rfl }

end Opening

/-! ### Use and drop -/

/-- A program that does nothing but `ioctl`s on a vCPU. -/
inductive UsesVcpu {α : Type} (vcpu : ℕ) : VmProg α → Prop
  | ret {a} : UsesVcpu vcpu (.ret a)
  | ioctl {req k} : req.kind = .vcpu → (∀ x, UsesVcpu vcpu (k x)) →
      UsesVcpu vcpu (.call (.ioctl vcpu req) k)

theorem UsesVcpu.ensures {α : Type} {vcpu : ℕ} {p : VmProg α} {r : Held} (h : UsesVcpu vcpu p)
    (hkind : HasKind r (.fd vcpu) .vcpu) (henter : Enterable r vcpu) :
    kernel.Ensures p (fun _ r' => r' = r) r := by
  induction h with
  | ret => rfl
  | @ioctl req k hreq _ ih =>
      have hready : req.Ready r vcpu := by
        cases req with
        | run => exact henter
        | setUserMemoryRegion => cases hreq
        | _ => trivial
      refine ⟨⟨hreq.symm ▸ hkind, hready⟩, fun x r' hans => ?_⟩
      have hsame : r' = r := by
        cases x with
        | error => exact hans
        | ok v => cases req <;> first | exact hans | cases hreq
      rw [hsame]
      exact ih x

namespace Opened

variable {r r' : Held} {memSize : ℕ} {v : OpenVm}

theorem valid_withKvm (hr : r.Valid) : (v.withKvm r).Valid := Registry.valid_acquire hr nofun

theorem valid_withVm (hr : r.Valid) : (v.withVm r).Valid :=
  Registry.valid_acquire (valid_withKvm hr)
    (List.forall_mem_singleton.mpr hasKind_acquire.ne_none)

theorem valid_withMem (hr : r.Valid) : (v.withMem r).Valid :=
  Registry.valid_acquire (valid_withVm hr)
    (List.forall_mem_singleton.mpr hasKind_acquire.ne_none)

theorem valid_withVcpu (h : Opened r memSize v r') (hr : r.Valid) : (v.withVcpu r).Valid :=
  Registry.valid_acquire (valid_withMem hr)
    (List.forall_mem_singleton.mpr (hasKind_acquire.acquire h.mem).ne_none)

theorem hasKind_vcpu (h : Opened r memSize v r') : HasKind r' (.fd v.vcpu) .vcpu := by
  rw [h.held]
  exact hasKind_acquire.acquire h.runMap

/-- The RAM stays where it was while the vCPU and its page are added. -/
theorem held_mem (h : Opened r memSize v r') :
    r'.held (.map v.mem.ptr) = some ⟨.ram v.mem.len, [.fd v.vm]⟩ := by
  have hvcpu : (v.withVcpu r).held (.map v.mem.ptr) = some ⟨.ram v.mem.len, [.fd v.vm]⟩ :=
    (Registry.held_acquire_of_ne HostResource.map_ne_fd).trans Registry.held_acquire_self
  have hne : HostResource.map v.mem.ptr ≠ .map v.runMap.ptr := by
    intro heq
    rw [heq, h.runMap] at hvcpu
    cases hvcpu
  rw [h.held]
  exact (Registry.held_acquire_of_ne hne).trans hvcpu

theorem enterable (h : Opened r memSize v r') : Enterable r' v.vcpu := by
  have hpage : r'.held (.map v.runMap.ptr) = some ⟨.runPage v.runMap.len, [.fd v.vcpu]⟩ := by
    rw [h.held]
    exact Registry.held_acquire_self
  have hvcpu : r'.held (.fd v.vcpu) = some ⟨.vcpu, [.fd v.vm]⟩ := by
    rw [h.held]
    exact (Registry.held_acquire_of_ne HostResource.fd_ne_map).trans Registry.held_acquire_self
  exact ⟨⟨_, _, _, hpage, rfl, h.header, List.mem_singleton_self _⟩, _, _, hvcpu,
    List.mem_singleton_self _, _, _, _, h.held_mem, rfl, List.mem_singleton_self _⟩

/-- Dropped, it leaves what was held before. -/
theorem drop (h : Opened r memSize v r') (hr : r.Valid) :
    kernel.Ensures v.drop (fun _ r' => r' = r) r' := by
  have hfresh : (v.withVm r).held (.fd v.vcpu) = none :=
    (Registry.held_acquire_of_ne HostResource.fd_ne_map).symm.trans h.vcpu
  rw [h.held]
  refine ensures_release (releases_munmap _ _ (.inr rfl)) (h.valid_withVcpu hr) h.runMap
    (List.mem_singleton.not.mpr HostResource.map_ne_fd) fun _ => ?_
  -- the RAM goes before the vCPU that came after it
  refine ensures_release_under (releases_munmap _ _ (.inl rfl)) (valid_withVm hr) h.mem
    (List.mem_singleton.not.mpr HostResource.map_ne_fd) HostResource.map_ne_fd
    (List.mem_singleton.not.mpr HostResource.map_ne_fd) fun _ => ?_
  refine ensures_release (releases_close _ _) (valid_withVm hr) hfresh
    (List.mem_singleton.not.mpr (Registry.ne_of_fresh hfresh)) fun _ => ?_
  refine ensures_release (releases_close _ _) (valid_withKvm hr) h.vm
    (List.mem_singleton.not.mpr (Registry.ne_of_fresh h.vm)) fun _ => ?_
  exact ensures_release (releases_close _ _) hr h.kvm List.not_mem_nil fun _ => rfl

end Opened

section Lifetimes

variable {r r' : Held} {memSize : ℕ} {new : VmAttempt OpenVm}

/-- Made, used and dropped, a VM leaves what was held before. -/
theorem lifetime_balanced (hnew : Vm.new memSize = some new) {use : OpenVm → VmAttempt Unit}
    (huse : ∀ v, UsesVcpu v.vcpu (use v).run) (hr : r.Valid) :
    kernel.Ensures (lifetime new use).run (Host.Either (fun _ r' => r' = r) fun _ r' => r' = r)
      r := by
  have hbring : new = bringUp memSize := by
    unfold Vm.new at hnew
    split at hnew
    · exact (Option.some.inj hnew).symm
    · cases hnew
  subst hbring
  refine Host.ensures_try.mpr ((bringUp_opens hr).mono fun result r' hresult => ?_)
  cases result with
  -- what failed inside `Vm::new` has been released by the time it returns
  | error e => exact hresult
  | ok v =>
      -- the use of the machine keeps what is held, and the drop releases it in field order
      have hopen : Opened r memSize v r' := hresult
      refine Host.ensures_bind.mpr
        (((huse v).ensures hopen.hasKind_vcpu hopen.enterable).mono fun result r'' hsame => ?_)
      rw [hsame]
      refine Host.ensures_bind.mpr ((hopen.drop hr).mono fun _ r'' hback => ?_)
      cases result with
      | ok => exact hback
      | error => exact hback

theorem lifetimes_ensure (hnew : Vm.new memSize = some new) (hr : r.Valid)
    {uses : List (OpenVm → VmAttempt Unit)}
    (huses : ∀ use ∈ uses, ∀ v, UsesVcpu v.vcpu (use v).run) :
    kernel.Ensures (lifetimes new uses).run
      (Host.Either (fun _ r' => r' = r) fun _ r' => r' = r) r := by
  induction uses with
  | nil => rfl
  | cons use uses ih =>
      have hrest := ih fun use' h => huses use' (List.mem_cons_of_mem _ h)
      refine Host.ensures_try.mpr
        ((lifetime_balanced hnew (huses use List.mem_cons_self) hr).mono fun result r' hsame => ?_)
      cases result with
      | error e => exact hsame
      | ok =>
          obtain rfl : r' = r := hsame
          exact hrest

/-- For any number of VMs one after the other, whatever the host answers and
wherever a call fails, and for every program that only talks to the vCPU in
between: no call is illegal.  Whatever is used is held and of its kind, nothing
is released twice or while something has to end within it, and a vCPU is entered
only with its page mapped and its VM's memory in place.  At the end the process
holds what it held before. -/
theorem lifetimes_balanced (hnew : Vm.new memSize = some new)
    {uses : List (OpenVm → VmAttempt Unit)}
    (huses : ∀ use ∈ uses, ∀ v, UsesVcpu v.vcpu (use v).run) (hr : r.Valid)
    {p : VmProg (Except RunError Unit)}
    (hruns : kernel.Runs ((lifetimes new uses).run, r) (p, r')) :
    (∀ c k, p = .call c k → HostCall.Legal r' c) ∧ ∀ result, p = .ret result → r' = r := by
  have h := (lifetimes_ensure hnew hr huses).runs hruns
  constructor
  · rintro c k rfl
    exact h.1
  · rintro result rfl
    cases result with
    | ok => exact h
    | error => exact h

/-- Enter the guest once. -/
def enterOnce (v : OpenVm) : VmAttempt Unit :=
  .call (.ioctl v.vcpu .run) fun _ => .ret (.ok ())

/-- Nothing is held. -/
def nothing : Held := ⟨fun _ => none⟩

theorem step_returned {α : Type} {c : HostCall} {k : Answer → VmProg α} (v : ℕ)
    (h : c.Returned r v r') : kernel.Step (.call c k, r) (k (.ok v), r') :=
  .call h

theorem runs_once : ∃ r', kernel.Runs ((lifetimes (bringUp 4096) [enterOnce]).run, nothing)
    (.ret (.ok ()), r') :=
  ⟨_, .head (step_returned 3 ⟨rfl, rfl⟩) <| .head (step_returned 12 rfl) <|
    .head (step_returned 1 rfl) <| .head (step_returned 4 ⟨by decide, rfl⟩) <|
    .head (step_returned 0 rfl) <| .head (step_returned 8192 ⟨by decide, rfl⟩) <|
    .head (step_returned 0 rfl) <| .head (step_returned 5 ⟨by decide, rfl⟩) <|
    .head (step_returned 4096 rfl) <| .head (step_returned 16384 ⟨by decide, rfl⟩) <|
    .head (step_returned 0 rfl) <| .head (step_returned 0 rfl) <|
    .head (step_returned 0 rfl) <| .head (step_returned 0 rfl) <|
    .head (step_returned 0 rfl) <| .head (step_returned 0 rfl) .refl⟩

theorem lifetimes_balanced_once :
    kernel.Runs ((lifetimes (bringUp 4096) [enterOnce]).run, nothing)
      (.ret (.ok ()), nothing) := by
  have huses : ∀ use ∈ [enterOnce], ∀ v, UsesVcpu v.vcpu (use v).run := by
    intro use huse v
    rw [List.mem_singleton.mp huse]
    exact .ioctl rfl fun _ => .ret
  have hvalid : nothing.Valid := nofun
  obtain ⟨r', hruns⟩ := runs_once
  have hback := (lifetimes_balanced (if_pos (by decide)) huses hvalid hruns).2 _ rfl
  rwa [hback] at hruns

end Lifetimes

end SystemsStudy.Kvm
