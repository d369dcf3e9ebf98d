import Mathlib.Data.List.Forall2
import TreeLowering.Proofs.Unit

/-!
Units lowered one after another. A group that stopped does nothing more (`Batch.lower_of_stopped`):
the units called off fail too, and their failures are not kept. A live group holds the modules of
the units before the next one (`Batch.live`), and the turn of a unit adds its module
(`Batch.lower_live`) or stops the group (`Batch.lower_live_error`). So a run over the units gives
every module, or the failure of the first unit that has none (`lowerUnits_of_generates`,
`lowerUnits_of_failure`), and one of the two happens (`CompilationUnit.generates_or_fails`).
-/
namespace TreeLowering

namespace CompilationUnit

/-- What lowering a unit by itself gives. -/
def lowered (config : Config) (u : CompilationUnit) : Outcome Ir.Module :=
  lowerUnit u.analysis config u.decls

/-- Lowering the unit by itself gives the module. -/
def Generates (config : Config) (u : CompilationUnit) (m : Ir.Module) : Prop :=
  (u.lowered config).result = .ok m

/-- The reports on the way through units, one after another. -/
def reports (config : Config) (units : List CompilationUnit) : List Event :=
  units.flatMap fun u => (u.lowered config).trace

/-- Every unit gives a module, or one is the first to fail. -/
theorem generates_or_fails (config : Config) : ∀ units : List CompilationUnit,
    (∃ mods, List.Forall₂ (Generates config) units mods) ∨
      ∃ before mods u f after, units = before ++ u :: after ∧
        List.Forall₂ (Generates config) before mods ∧ (u.lowered config).result = .error f
  | [] => .inl ⟨[], .nil⟩
  | u :: units => by
    cases hu : (u.lowered config).result with
    | error f => exact .inr ⟨[], [], u, f, units, rfl, .nil, hu⟩
    | ok m =>
      rcases generates_or_fails config units with
        ⟨mods, h⟩ | ⟨before, mods, v, f, after, rfl, h, hv⟩
      · exact .inl ⟨m :: mods, .cons hu h⟩
      · exact .inr ⟨u :: before, m :: mods, v, f, after, rfl, .cons hu h, hv⟩

theorem exists_modules_iff {config : Config} {units : List CompilationUnit} :
    (∃ mods, List.Forall₂ (Generates config) units mods) ↔
      ∀ u ∈ units, ∃ m, u.Generates config m := by
  induction units with
  | nil => simp
  | cons u units ih =>
    rw [List.forall_mem_cons, ← ih]
    constructor
    · rintro ⟨_, _ | ⟨hu, h⟩⟩
      exact ⟨⟨_, hu⟩, _, h⟩
    · rintro ⟨⟨m, hu⟩, mods, h⟩
      exact ⟨m :: mods, .cons hu h⟩

end CompilationUnit

open CompilationUnit

namespace Batch

variable {config : Config} {b : Batch} {u : CompilationUnit} {f : Failure} {m : Ir.Module}

/-! ## The turn of a unit -/

/-- A group that stopped for a failure is left as it is by the units called off. -/
theorem lower_of_stopped (hc : b.canceled = true) (hf : b.failure = some f) (i : Nat) :
    b.lower config u i = b := by
  unfold lower
  rw [if_pos hc]
  cases b
  cases hc
  cases hf
  rfl

/-- A live group in which some units gave modules and as many as `left` wait. -/
def live (mods : List Ir.Module) (left : Nat) (trace : List Event) : Batch :=
  { canceled := false, modules := (mods.map some ++ List.replicate left none).toArray, trace }

variable {mods : List Ir.Module} {left : Nat} {trace : List Event}

theorem start_eq_live (units : Nat) : start false units = live [] units [] := by
  simp [start, live]

theorem lower_live (h : u.Generates config m) :
    (live mods (left + 1) trace).lower config u mods.length =
      live (mods ++ [m]) left (trace ++ (u.lowered config).trace) := by
  unfold Generates lowered at h
  have place : ((mods.map some ++ List.replicate (left + 1) none).toArray).setIfInBounds
      mods.length (some m) = ((mods ++ [m]).map some ++ List.replicate left none).toArray := by
    simp [List.replicate_succ, List.set_append_right]
  simp only [lower, live, h, lowered, Bool.false_eq_true, if_false, place]

theorem lower_live_error (h : (u.lowered config).result = .error f) (i : Nat) :
    (live mods left trace).lower config u i =
      (live mods left (trace ++ (u.lowered config).trace)).fail (f.within u.name) := by
  unfold lowered at h
  simp only [lower, live, h, lowered, Bool.false_eq_true, if_false]

/-! ## Runs -/

/-- The turns of units that stand from an index on. -/
def run (config : Config) (b : Batch) (units : List CompilationUnit) (index : Nat) : Batch :=
  (units.zipIdx index).foldl (fun b (u, i) => b.lower config u i) b

theorem run_cons (units : List CompilationUnit) (index : Nat) :
    b.run config (u :: units) index = (b.lower config u index).run config units (index + 1) :=
  rfl

theorem run_append (before after : List CompilationUnit) (index : Nat) :
    b.run config (before ++ after) index =
      (b.run config before index).run config after (index + before.length) := by
  simp [run, List.zipIdx_append]

theorem run_of_stopped (hc : b.canceled = true) (hf : b.failure = some f) :
    ∀ (units : List CompilationUnit) (index : Nat), b.run config units index = b
  | [], _ => rfl
  | u :: units, index => by
    rw [run_cons, lower_of_stopped hc hf]
    exact run_of_stopped hc hf units _

/-- Units that all give modules leave the group live. -/
theorem run_live {units : List CompilationUnit} {new : List Ir.Module}
    (h : List.Forall₂ (Generates config) units new) (left : Nat) :
    ∀ (mods : List Ir.Module) (trace : List Event),
      (live mods (units.length + left) trace).run config units mods.length =
        live (mods ++ new) left (trace ++ reports config units) := by
  induction h with
  | nil => simp [run, reports]
  | @cons u m units new hu _ ih =>
    intro mods trace
    have hn : (u :: units).length + left = units.length + left + 1 := by
      rw [List.length_cons]
      omega
    rw [run_cons, hn, lower_live hu]
    simpa [reports] using ih (mods ++ [m]) (trace ++ (u.lowered config).trace)

theorem run_live_nil {units : List CompilationUnit} {new : List Ir.Module}
    (h : List.Forall₂ (Generates config) units new) (left : Nat) :
    (live [] (units.length + left) []).run config units 0 =
      live new left (reports config units) := by
  simpa using run_live h left [] []

theorem outcome_live (mods : List Ir.Module) (trace : List Event) :
    (live mods 0 trace).outcome = ⟨.ok mods, trace⟩ := by
  simp [outcome, live, List.filterMap_map]

end Batch

/-! ## Several units -/

section Units

variable {config : Config} {units before after : List CompilationUnit} {mods : List Ir.Module}
  {u : CompilationUnit} {f : Failure}

theorem lowerUnits_eq_run :
    lowerUnits config false units =
      ((Batch.live [] units.length []).run config units 0).outcome := by
  rw [← Batch.start_eq_live]
  rfl

theorem lowerUnits_of_generates (h : List.Forall₂ (Generates config) units mods) :
    lowerUnits config false units = ⟨.ok mods, reports config units⟩ := by
  rw [lowerUnits_eq_run, ← Nat.add_zero units.length, Batch.run_live_nil h, Batch.outcome_live]

/-- The first unit that fails decides: those after it are called off. -/
theorem lowerUnits_of_failure (h : List.Forall₂ (Generates config) before mods)
    (hu : (u.lowered config).result = .error f) :
    lowerUnits config false (before ++ u :: after) =
      ⟨.error (f.within u.name), reports config (before ++ [u])⟩ := by
  rw [lowerUnits_eq_run, Batch.run_append, List.length_append, Batch.run_live_nil h,
    Batch.run_cons, Batch.lower_live_error hu, Batch.run_of_stopped rfl rfl]
  simp [Batch.outcome, Batch.fail, Batch.live, reports]

end Units

/-- Lowering units together agrees with lowering each by itself: it gives one module for each unit,
    in their order, if and only if each gives one. Otherwise the first unit that fails decides the
    failure, which carries the unit's name unless it is a breach, and no unit after it is
    lowered. -/
theorem lowerUnits_agrees (config : Config) (units : List CompilationUnit) :
    (∀ mods, (lowerUnits config false units).result = .ok mods ↔
      List.Forall₂ (Generates config) units mods) ∧
    ((∃ mods, (lowerUnits config false units).result = .ok mods) ↔
      ∀ u ∈ units, ∃ m, u.Generates config m) ∧
    ∀ i u f, units[i]? = some u → (∀ v ∈ units.take i, ∃ m, v.Generates config m) →
      (u.lowered config).result = .error f →
      lowerUnits config false units =
          ⟨.error (f.within u.name), reports config (units.take (i + 1))⟩ ∧
        ((∃ position cause, f = .fault (.rejected position cause) ∧
            f.within u.name = .inUnit u.name f ∧ (f.within u.name).message? =
              some (utf8 (u.name ++ ": ") ++ rejectionMessage position cause)) ∨
          ∃ b, f = .fault (.breach b) ∧ f.within u.name = f) := by
  have ok_iff : ∀ mods, (lowerUnits config false units).result = .ok mods ↔
      List.Forall₂ (Generates config) units mods := by
    intro mods
    refine ⟨fun h => ?_, fun h => by rw [lowerUnits_of_generates h]⟩
    rcases generates_or_fails config units with ⟨mods', hg⟩ | ⟨_, _, u, f, _, rfl, hg, hu⟩
    · rw [lowerUnits_of_generates hg] at h
      cases h
      exact hg
    · rw [lowerUnits_of_failure hg hu] at h
      cases h
  refine ⟨ok_iff, ?_, ?_⟩
  · simp only [ok_iff, exists_modules_iff]
  · intro i u f hi before hu
    obtain ⟨mods, hg⟩ := exists_modules_iff.mpr before
    obtain ⟨hlt, rfl⟩ := List.getElem?_eq_some_iff.mp hi
    have split : units = units.take i ++ units[i] :: units.drop (i + 1) := by
      rw [← List.drop_eq_getElem_cons hlt, List.take_append_drop]
    refine ⟨?_, ?_⟩
    · rw [List.take_succ_eq_append_getElem hlt, ← lowerUnits_of_failure hg hu, ← split]
    · obtain ⟨fault, rfl⟩ := lowerUnit_failure hu
      cases fault with
      | rejected position cause => exact .inl ⟨position, cause, rfl, rfl, rfl⟩
      | breach b => exact .inr ⟨b, rfl, rfl⟩

/-- A unit that is a single jump, which no loop surrounds. -/
def jumpUnit (name : String) (word : TokenKind) : CompilationUnit :=
  ⟨name, default, [.branch { id := 1 } (.known word)]⟩

/-- Of two units that fail after one that gives a module, the first is named. -/
theorem lowerUnits_agrees_jumpUnit :
    lowerUnits {} false [⟨"a", default, shortCircuitLoop⟩, jumpUnit "b" .breakWord,
        jumpUnit "c" .continueWord] =
      ⟨.error (.inUnit "b" (.fault (.rejected {} (.outsideLoop "break")))),
        reports {} [⟨"a", default, shortCircuitLoop⟩, jumpUnit "b" .breakWord]⟩ := by
  refine ((lowerUnits_agrees {} _).2.2 1 (jumpUnit "b" .breakWord)
    (.fault (.rejected {} (.outsideLoop "break"))) rfl ?_ rfl).1
  intro v hv
  rw [List.mem_singleton.mp hv]
  exact ⟨_, rfl⟩

end TreeLowering
