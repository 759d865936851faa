/-
SystemsStudy/Uffd/Sweep.lean

`main.rs`: the configurations of the fault benchmark.

Each placement that the machine offers is measured twice, with a handler that
polls and with one that spins, and the batch sizes on another core.  A label
becomes the kind of its rows in the results file by an underscore for every
character that is not a letter or a digit.  The map is not injective, but the
labels of a sweep stay apart (`nodup_csvKey`).
-/
import SystemsStudy.Uffd.Topology

namespace SystemsStudy.Uffd

/-- The placement, as the table of the benchmark names it. -/
def Placement.name : Placement → String
  | .sameCpu => "same logical CPU"
  | .smtSibling => "SMT sibling"
  | .otherCore => "different physical core"

/-- One configuration of the sweep. -/
structure Config where
  label : String
  /-- `none` means no userfaultfd at all -/
  handlerCpu : Option ℕ
  batch : ℕ
  /-- the handler spins on the fd instead of parking in `poll` -/
  spin : Bool
  deriving DecidableEq

/-- The configuration to compare with. -/
def baseline : Config where
  label := "no uffd (kernel anon fault)"
  handlerCpu := none
  batch := 0
  spin := false

/-- A placement, if the machine offers it, polling and spinning. -/
def placed (topo : Topology) (p : Placement) : List Config :=
  match topo.cpuFor p with
  | some cpu =>
      [{ label := "uffd batch=1, " ++ p.name ++ " (poll)"
         handlerCpu := some cpu, batch := 1, spin := false },
       { label := "uffd batch=1, " ++ p.name ++ " (spin)"
         handlerCpu := some cpu, batch := 1, spin := true }]
  | none => []

/-- The batch sizes, if there is another core. -/
def batches (topo : Topology) : List Config :=
  match topo.otherCore with
  | some cpu => [2, 4, 8, 16, 64].map fun batch =>
      { label := "uffd batch=" ++ toString batch ++ ", different physical core (poll)"
        handlerCpu := some cpu, batch, spin := false }
  | none => []

/-- The sweep of `bench_all`. -/
def configs (topo : Topology) (reverse : Bool) : List Config :=
  let configs := baseline ::
    ([.otherCore, .smtSibling, .sameCpu].flatMap (placed topo) ++ batches topo)
  if reverse then configs.reverse else configs

/-- The kind that a label becomes in the results file. -/
def csvKey (label : String) : String :=
  String.ofList (label.toList.map fun c => if c.isAlphanum then c else '_')

/-! ### The kinds of a sweep -/

theorem toList_csvKey (label : String) :
    (csvKey label).toList = label.toList.map fun c => if c.isAlphanum then c else '_' :=
  String.toList_ofList

/-- The labels on a machine with these placements. -/
def labels (smtSibling otherCore : Bool) : List String :=
  (configs { faulter := 0, smtSibling := if smtSibling then some 0 else none
             otherCore := if otherCore then some 0 else none } false).map Config.label

/-- The labels do not depend on the numbers of the CPUs. -/
theorem map_label_configs (topo : Topology) :
    (configs topo false).map Config.label =
      labels topo.smtSibling.isSome topo.otherCore.isSome := by
  obtain ⟨faulter, - | smt, - | core⟩ := topo
  · rfl
  · rfl
  · rfl
  · rfl

theorem nodup_labels (smtSibling otherCore : Bool) :
    ((labels smtSibling otherCore).map fun l => (csvKey l).toList).Nodup := by
  simp only [toList_csvKey]
  revert smtSibling otherCore
  decide

/-- Different configurations of a sweep have different kinds. -/
theorem nodup_csvKey (topo : Topology) (reverse : Bool) :
    ((configs topo reverse).map fun c => (csvKey c.label).toList).Nodup := by
  have hforward : ((configs topo false).map fun c => (csvKey c.label).toList).Nodup := by
    have h := nodup_labels topo.smtSibling.isSome topo.otherCore.isSome
    rw [← map_label_configs, List.map_map] at h
    exact h
  rcases reverse with - | -
  · exact hforward
  · show ((configs topo false).reverse.map _).Nodup
    rw [List.map_reverse]
    exact List.nodup_reverse.mpr hforward

end SystemsStudy.Uffd
