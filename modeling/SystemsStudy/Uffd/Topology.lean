/-
SystemsStudy/Uffd/Topology.lean

`topology.rs`: which CPU the handler runs on for each placement.

`Topology.detect` takes the first sibling of the faulter that sysfs lists, and
the first other CPU below the number of online CPUs whose `core_id` compares
different.  The comparison is one of options: a file that cannot be read, such as
that of an offline CPU, is different from every number.  So the CPU labelled as
on another core is on one exactly if no CPU with such a file comes first
(`detect_truthful_iff`).
-/
import SystemsStudy.Uffd.CpuList

namespace SystemsStudy.Uffd

/-- Where to put the handler relative to the faulting thread. -/
inductive Placement where
  | sameCpu
  | smtSibling
  | otherCore
  deriving DecidableEq

/-- The CPU numbers this machine offers for each placement, relative to a chosen
faulter CPU. -/
structure Topology where
  faulter : ℕ
  smtSibling : Option ℕ
  otherCore : Option ℕ
  deriving DecidableEq

/-- The file with the hardware threads of the core of a CPU. -/
def siblingsPath (cpu : ℕ) : String :=
  "/sys/devices/system/cpu/cpu" ++ toString cpu ++ "/topology/thread_siblings_list"

/-- The file with the number of the core of a CPU. -/
def coreIdPath (cpu : ℕ) : String :=
  "/sys/devices/system/cpu/cpu" ++ toString cpu ++ "/topology/core_id"

/-- `num_cpus`, for what `sysconf` returns. -/
def numCpus (onln : Int64) : ℕ := if onln < 1 then 1 else onln.toUInt64.toNat

/-- Read the sibling map and pick one CPU for each placement. -/
def Topology.detect (fs : Files) (onln : Int64) (faulter : ℕ) : Topology :=
  let siblings := readList fs (siblingsPath faulter)
  let smtSibling := siblings.find? fun c => c != faulter
  let myCore := readFirst fs (coreIdPath faulter)
  let n := numCpus onln
  let otherCore := (List.range n).find? fun c =>
    c != faulter && some c != smtSibling && readFirst fs (coreIdPath c) != myCore
  { faulter, smtSibling, otherCore }

/-- The CPU for the handler, if the machine offers the placement. -/
def Topology.cpuFor (t : Topology) : Placement → Option ℕ
  | .sameCpu => some t.faulter
  | .smtSibling => t.smtSibling
  | .otherCore => t.otherCore

/-! ### What the labels say -/

section Labels

variable (fs : Files) (faulter : ℕ)

/-- The two CPUs have readable core numbers, and they differ. -/
def DifferentCore (c : ℕ) : Prop :=
  ∃ k k', readFirst fs (coreIdPath c) = some k ∧ readFirst fs (coreIdPath faulter) = some k' ∧
    k ≠ k'

/-- What the label of a placement says about a CPU. -/
def Placement.Holds (c : ℕ) : Placement → Prop
  | .sameCpu => c = faulter
  | .smtSibling => c ≠ faulter ∧ c ∈ readList fs (siblingsPath faulter)
  | .otherCore => c ≠ faulter ∧ DifferentCore fs faulter c

/-- A CPU beside the faulter and the first sibling that is listed for it. -/
def Eligible (c : ℕ) : Prop :=
  c ≠ faulter ∧ (readList fs (siblingsPath faulter)).find? (fun s => s != faulter) ≠ some c

/-- Just one of the two core numbers can be read. -/
def Incomparable (c : ℕ) : Prop :=
  (readFirst fs (coreIdPath c)).isSome ≠ (readFirst fs (coreIdPath faulter)).isSome

end Labels

variable {fs : Files} {onln : Int64} {faulter : ℕ}

theorem DifferentCore.ne {c : ℕ} (h : DifferentCore fs faulter c) :
    readFirst fs (coreIdPath c) ≠ readFirst fs (coreIdPath faulter) := by
  obtain ⟨k, k', hk, hk', hne⟩ := h
  rw [hk, hk']
  exact fun heq => hne (Option.some.inj heq)

theorem DifferentCore.not_incomparable {c : ℕ} (h : DifferentCore fs faulter c) :
    ¬ Incomparable fs faulter c := by
  obtain ⟨k, k', hk, hk', -⟩ := h
  rw [Incomparable, hk, hk']
  exact fun hne => hne rfl

/-- Two options differ where both are there and differ, or where just one is. -/
theorem differentCore_or_incomparable {c : ℕ}
    (h : readFirst fs (coreIdPath c) ≠ readFirst fs (coreIdPath faulter)) :
    DifferentCore fs faulter c ∨ Incomparable fs faulter c := by
  rcases hc : readFirst fs (coreIdPath c) with - | k
  all_goals rcases hf : readFirst fs (coreIdPath faulter) with - | k'
  all_goals rw [hc, hf] at h
  · exact absurd rfl h
  · right
    rw [Incomparable, hc, hf]
    nofun
  · right
    rw [Incomparable, hc, hf]
    nofun
  · exact .inl ⟨k, k', hc, hf, fun heq => h (congrArg some heq)⟩

theorem Incomparable.ne {c : ℕ} (h : Incomparable fs faulter c) :
    readFirst fs (coreIdPath c) ≠ readFirst fs (coreIdPath faulter) :=
  fun heq => h (congrArg Option.isSome heq)

/-- What the search for another core asks of a CPU. -/
theorem candidate_iff {c : ℕ} :
    (c != faulter &&
      some c != (readList fs (siblingsPath faulter)).find? (fun s => s != faulter) &&
      readFirst fs (coreIdPath c) != readFirst fs (coreIdPath faulter)) = true ↔
      Eligible fs faulter c ∧
        readFirst fs (coreIdPath c) ≠ readFirst fs (coreIdPath faulter) := by
  rw [Bool.and_eq_true, Bool.and_eq_true, bne_iff_ne, bne_iff_ne, bne_iff_ne, Eligible,
    ne_comm (a := some c)]

/-- The first CPU that is eligible and compares different is taken. -/
theorem otherCore_eq_some {c : ℕ} :
    (Topology.detect fs onln faulter).otherCore = some c ↔
      (Eligible fs faulter c ∧
        readFirst fs (coreIdPath c) ≠ readFirst fs (coreIdPath faulter)) ∧
      c < numCpus onln ∧
      ∀ c' < c, Eligible fs faulter c' →
        readFirst fs (coreIdPath c') = readFirst fs (coreIdPath faulter) := by
  rw [Topology.detect, List.find?_range_eq_some, List.mem_range, candidate_iff]
  simp only [Bool.not_eq_true', ← Bool.not_eq_true, candidate_iff, not_and, not_not]

theorem otherCore_eq_none (h : (Topology.detect fs onln faulter).otherCore = none) {c : ℕ}
    (hc : c < numCpus onln) (heligible : Eligible fs faulter c) :
    readFirst fs (coreIdPath c) = readFirst fs (coreIdPath faulter) := by
  by_contra hne
  exact List.find?_eq_none.mp h c (List.mem_range.mpr hc) (candidate_iff.mpr ⟨heligible, hne⟩)

/-- Every label is right exactly if an incomparable CPU never comes first. -/
theorem detect_truthful_iff (fs : Files) (onln : Int64) (faulter : ℕ) :
    (∀ p c, (Topology.detect fs onln faulter).cpuFor p = some c → p.Holds fs faulter c) ↔
      ∀ c < numCpus onln, Eligible fs faulter c → Incomparable fs faulter c →
        ∃ c' < c, Eligible fs faulter c' ∧ DifferentCore fs faulter c' := by
  constructor
  · intro htruth c hc heligible hinc
    rcases e : (Topology.detect fs onln faulter).otherCore with - | c'
    · exact absurd (otherCore_eq_none e hc heligible) hinc.ne
    · obtain ⟨⟨heligible', -⟩, -, hbefore⟩ := otherCore_eq_some.mp e
      obtain ⟨-, hdiff⟩ := htruth .otherCore c' e
      refine ⟨c', ?_, heligible', hdiff⟩
      -- `detect` takes the first CPU it finds different, so the truthful one is below `c`
      rcases lt_trichotomy c c' with hlt | rfl | hlt
      · exact absurd (hbefore c hlt heligible) hinc.ne
      · exact absurd hinc hdiff.not_incomparable
      · exact hlt
  · intro hfirst p c hc
    cases p with
    | sameCpu => exact (Option.some.inj hc).symm
    | smtSibling =>
        have hsibling : (c != faulter) = true := List.find?_some (p := fun s => s != faulter) hc
        exact ⟨bne_iff_ne.mp hsibling, List.mem_of_find?_eq_some hc⟩
    -- an incomparable CPU taken would be below a truthful one, which comes first
    | otherCore =>
        obtain ⟨⟨heligible, hne⟩, hlt, hbefore⟩ := otherCore_eq_some.mp hc
        refine ⟨heligible.1, ?_⟩
        rcases differentCore_or_incomparable hne with hdiff | hinc
        · exact hdiff
        · obtain ⟨c', hc', heligible', hdiff⟩ := hfirst c hlt heligible hinc
          exact absurd (hbefore c' hc' heligible') hdiff.ne

/-- Four CPUs on two cores, of which the second is offline. -/
def secondOffline : Files := fun path =>
  if path = coreIdPath 0 then some "0\n"
  else if path = coreIdPath 2 then some "1\n"
  else if path = coreIdPath 3 then some "1\n"
  else if path = siblingsPath 0 then some "0\n"
  else none

/-- The offline CPU is taken for one on another core. -/
theorem offline_cpu_is_mislabelled :
    ¬ ∀ p c, (Topology.detect secondOffline 3 0).cpuFor p = some c →
      p.Holds secondOffline 0 c := by
  intro htruth
  obtain ⟨-, k, k', hk, -⟩ := htruth .otherCore 1 (by decide +kernel)
  have hnone : readFirst secondOffline (coreIdPath 1) = none := by decide +kernel
  rw [hnone] at hk
  cases hk

end SystemsStudy.Uffd
