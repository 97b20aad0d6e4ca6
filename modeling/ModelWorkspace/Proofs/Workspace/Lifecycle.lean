import ModelWorkspace.Proofs.Text.LocationMap
import ModelWorkspace.Workspace.Update

/-!
# The lifecycle steps of a build

Every step that a build takes with a unit exists: a manifest runs through all states, a
model unit is only sent back to states it has reached, and it is linked only behind
indexing.  Each step is described by the unit that it leads to.
-/

namespace ModelWorkspace
namespace SourceUnit

/-- What is tracked of a manifest with a text, as far as it is known without the other
packages. -/
def ofManifestText (l : Location) (text : String) : SourceUnit :=
  { ofText l .manifest text with
    manifest := (Manifest.ofText text).toOption, state := .validated }

/-- A unit without its links, back where it was parsed. -/
def parsedAgain (u : SourceUnit) : SourceUnit :=
  { u with links := {}, state := .parsed }

/-- A unit with the links and diagnostics that a linker gives it. -/
def linkedBy (u : SourceUnit) (linker : Linker) : SourceUnit :=
  let links := linker.linkDocument u.location u.document.root
  { u with
    links := links, diagnostics := validate u.document links.references, state := .validated }

theorem isModel_eq_true_iff {u : SourceUnit} : u.isModel = true ↔ u.kind = .model := by
  unfold isModel
  cases u.kind <;> decide

/-- A unit is a model file or a manifest. -/
theorem isManifest_eq_not_isModel (u : SourceUnit) : u.isManifest = !u.isModel := by
  unfold isManifest isModel
  cases u.kind <;> rfl

theorem unlink_snd (u : SourceUnit) :
    u.unlink.2 = { u with links := {}, state := u.unlink.2.state } := by
  unfold unlink
  split <;> rfl

/-- Unlinking stops at the state behind indexing. -/
theorem state_unlink (u : SourceUnit) :
    u.unlink.2.state = u.state ∨
      (u.unlink.2.state = .indexed ∧ LifecycleState.indexed < u.state) := by
  unfold unlink
  split
  · rename_i h
    exact Or.inr ⟨rfl, h.2⟩
  · exact Or.inl rfl

theorem resetTo_eq {u : SourceUnit} {state : LifecycleState} (h : ¬ u.state < state) :
    u.resetTo state = .ok { u with state := state } := by
  unfold resetTo
  rw [if_neg h]

theorem advance_eq {u : SourceUnit} {state : LifecycleState}
    (h : u.state.next? = some state) : u.advance state = .ok { u with state := state } := by
  unfold advance
  rw [if_pos h]

/-- A unit that was indexed may be sent back, unlinked, to where it was indexed or
parsed. -/
theorem resetTo_unlink {u : SourceUnit} {state : LifecycleState} (h : ¬ u.state < state)
    (hstate : ¬ LifecycleState.indexed < state) :
    u.unlink.2.resetTo state = .ok { u with links := {}, state := state } := by
  have hreached : ¬ u.unlink.2.state < state := by
    rcases state_unlink u with heq | ⟨heq, -⟩
    · rw [heq]
      exact h
    · rw [heq]
      exact hstate
  rw [resetTo_eq hreached, unlink_snd]

end SourceUnit

namespace Build

open SourceUnit

variable {u : SourceUnit}

theorem advanceTo_validated (hstate : u.state = .unbuilt) :
    advanceTo u .validated = .ok { u with state := .validated } := by
  have hsteps : (LifecycleState.all.filter fun s => u.state < s ∧ ¬ LifecycleState.validated < s) =
      [.parsed, .indexed, .linked, .validated] := by
    rw [hstate]
    decide
  unfold advanceTo
  rw [hsteps, List.foldlM_cons, advance_eq (by rw [hstate]; rfl)]
  rfl

/-- The build behind the tracking of a manifest. -/
def withManifest (b : Build) (l : Location) (text : String) : Build :=
  { b with
    workspace := { b.workspace with units := b.workspace.units.put (ofManifestText l text) }
    report := { b.report with parsed := b.report.parsed ++ [l] } }

theorem unit_withManifest (b : Build) (l : Location) (text : String) (other : Location) :
    (b.withManifest l text).workspace.units.get? other =
      if other = l then some (ofManifestText l text) else b.workspace.units.get? other :=
  LocationMap.get?_insert _ _ _ _

theorem unit_withManifest_self (b : Build) (l : Location) (text : String) :
    (b.withManifest l text).workspace.units.get? l = some (ofManifestText l text) :=
  LocationMap.get?_insert_self _ _ _

theorem unit_storeModel_self (b : Build) (l : Location) (text : String) (document : Document) :
    (b.storeModel l text document).workspace.units.get? l = some (ofDocument l text document) :=
  LocationMap.get?_insert_self _ _ _

theorem storeManifest_eq (b : Build) (l : Location) (text : String) :
    b.storeManifest l text = .ok (b.withManifest l text) := by
  unfold storeManifest
  dsimp only
  rw [advanceTo_validated rfl]
  rfl

theorem backToParsed_eq (u : SourceUnit) :
    backToParsed u =
      .ok (if u.isModel ∧ LifecycleState.parsed < u.state then u.parsedAgain else u) := by
  unfold backToParsed
  split
  · rename_i h
    have hstate : ¬ u.state < LifecycleState.parsed := by
      have hlt : LifecycleState.parsed.rank < u.state.rank := h.2
      show ¬ u.state.rank < LifecycleState.parsed.rank
      omega
    exact resetTo_unlink hstate (by decide)
  · rfl

theorem markIndexed_eq (u : SourceUnit) :
    markIndexed u = .ok (if isReady u then { u with state := .indexed } else u) := by
  unfold markIndexed
  split
  · rename_i h
    have hstate : u.state = .parsed := by
      unfold isReady at h
      simpa using (Bool.and_eq_true_iff.mp h).2
    exact advance_eq (by rw [hstate]; rfl)
  · rfl

theorem relinkUnit_eq {linker : Linker} (hstate : ¬ u.state < .indexed) :
    relinkUnit linker u = .ok (u.linkedBy linker) := by
  unfold relinkUnit
  rw [resetTo_unlink hstate (by decide)]
  rfl

/-- What has to be linked has been indexed. -/
theorem isModel_of_needsLink {b : Build} {affected : List String}
    (h : b.needsLink affected u = true) : u.isModel = true ∧ ¬ u.state < .indexed := by
  unfold needsLink at h
  obtain ⟨hmodel, hstate⟩ := Bool.and_eq_true_iff.mp h
  refine ⟨hmodel, ?_⟩
  cases hu : u.state with
  | unbuilt => rw [hu] at hstate; cases hstate
  | parsed => rw [hu] at hstate; cases hstate
  | indexed => decide
  | linked => decide
  | validated => decide

end Build
end ModelWorkspace
