import ModelWorkspace.Proofs.Index.Naming
import ModelWorkspace.Proofs.Workspace.Faithful

/-!
# Names in the order of locations

A workspace is in order when every model unit has the names that it gets behind the units
at smaller locations.  Indexing all units leaves the workspace in order, and so it is
whenever packages have changed; a workspace in which no unit has to give way to another
is in order, too.

Names in order do not remember how they came about: two workspaces in order that mirror
the same disk know the same identifiers, for the same elements.
-/

namespace ModelWorkspace

open SourceUnit

namespace Workspace

/-- Every model unit has the names that it gets behind the units before it. -/
def InOrder (ws : Workspace) : Prop :=
  ∀ l u, ws.units.get? l = some u → u.isModel = true →
    SamePlaces (ws.index.entriesIn l) (u.entriesGiven ws.packages (ws.index.idsBefore l))

/-- Every model unit has the names that it gets if there are no others. -/
def Uncontested (ws : Workspace) : Prop :=
  ∀ l u, ws.units.get? l = some u → u.isModel = true →
    SamePlaces (ws.index.entriesIn l) (u.entriesGiven ws.packages [])

/-- The model units of one workspace are in the other one, too. -/
def ModelsWithin (ws other : Workspace) : Prop :=
  ∀ l u, ws.units.get? l = some u → u.isModel = true →
    ∃ v, other.units.get? l = some v ∧ v.isModel = true ∧ SameSource u v

variable {ws other : Workspace} {disk : Disk} {l : Location} {u : SourceUnit}

theorem Settled.mem_entriesIn (h : ws.Settled) {e : IndexEntry} :
    e ∈ ws.index.entriesIn l ↔ e ∈ ws.index.entries ∧ e.location = l := by
  rw [h.coherent.entriesIn_eq, List.mem_filter, decide_eq_true_iff]

/-- Names that nobody else wants are in order. -/
theorem Settled.inOrder_of_uncontested (h : ws.Settled) (halone : ws.Uncontested) :
    ws.InOrder := by
  intro l u hu hmodel
  have hsame := halone l u hu hmodel
  have hfree : ∀ e ∈ u.entriesGiven ws.packages [], e.globalId ∉ ws.index.idsBefore l := by
    intro e he hbefore
    obtain ⟨own, hown, heq⟩ := List.mem_map.mp ((hsame _).mpr (mem_namedPlaces_of_mem he))
    obtain ⟨hmem, hlocation⟩ := h.mem_entriesIn.mp hown
    obtain ⟨earlier, hearlier, hid⟩ := List.mem_map.mp hbefore
    obtain ⟨hentry, hlt⟩ := List.mem_filter.mp hearlier
    -- an identifier has one entry, which is not at two locations
    have hone : earlier = own :=
      h.coherent.entry_unique hentry hmem (hid.trans (Prod.mk.inj heq).1.symm)
    have hless := of_decide_eq_true hlt
    rw [hone, hlocation] at hless
    exact Location.lt_irrefl _ hless
  rw [entriesGiven_of_subset (List.nil_subset _) hfree]
  exact hsame

/-! ## The name that a root declares -/

/-- In order, the name that a root declares belongs to the root, unless a unit at a
smaller location has it. -/
theorem Settled.holder_of_inOrder (h : ws.Settled) (horder : ws.InOrder)
    (hu : ws.units.get? l = some u) (hmodel : u.isModel = true) {root : Element} {id : String}
    (hroot : u.document.root = some root) (hid : root.id = some id) {p : Package}
    (hp : ws.packages.packageFor? l = some p) :
    ∃ e, ws.index.get? (Name.globalId p.id id) = some e ∧
      (e.location = l ∧ e.path = ElementPath.root ∨ e.location < l) := by
  have hlocation := (h.wellFormed l u hu).location_eq
  -- the root gets the name that it declares unless somebody before it has taken it
  by_cases htaken : Name.globalId p.id id ∈ ws.index.idsBefore l
  · obtain ⟨e, he, heq⟩ := List.mem_map.mp htaken
    obtain ⟨hmem, hlt⟩ := List.mem_filter.mp he
    exact ⟨e, h.coherent.get?_eq_some_iff.mpr ⟨hmem, heq⟩, Or.inr (of_decide_eq_true hlt)⟩
  · obtain ⟨given, hgiven, hown, hpath, hname⟩ := exists_root_entriesGiven hroot hid
      (hlocation.symm ▸ hp) (ws.index.idsBefore l)
    obtain ⟨e, he, heq⟩ := List.mem_map.mp
      ((horder l u hu hmodel _).mpr (mem_namedPlaces_of_mem hgiven))
    obtain ⟨hsame, hplace⟩ := Prod.mk.inj heq
    obtain ⟨hmem, hl⟩ := h.mem_entriesIn.mp he
    refine ⟨e, h.coherent.get?_eq_some_iff.mpr ⟨hmem, hsame.trans (hname htaken)⟩,
      Or.inl ⟨hl, ?_⟩⟩
    exact (congrArg (fun place => place.2.1) hplace).trans hpath

/-! ## One disk -/

/-- Packages do not remember how they came about. -/
theorem Mirrors.packages_eq (h : ws.Mirrors disk) (h' : other.Mirrors disk)
    (hsettled : ws.Settled) (hsettled' : other.Settled) (hconfig : other.config = ws.config) :
    other.packages = ws.packages := by
  have hsub : ∀ {a b : Workspace}, a.Mirrors disk → b.Mirrors disk → a.Settled →
      b.config = a.config → ∀ root p, a.packages.packages.get? root = some p →
        b.packages.packages.get? root = some p := by
    intro a b ha hb hdeclared heq root p hp
    have hdeclares := ha.package_declared root p hp
    rw [← heq] at hdeclares
    have hget := hb.declared_package _ p hdeclares
    rwa [(hdeclared.declared root p hp).1] at hget
  have hmaps : other.packages.packages = ws.packages.packages := by
    refine LocationMap.ext_get? fun root => Option.ext fun p => ?_
    exact ⟨hsub h' h hsettled' hconfig.symm root p, hsub h h' hsettled hconfig root p⟩
  exact congrArg PackageGraph.mk hmaps

/-- Model units do not remember how they came about. -/
theorem Mirrors.modelsWithin (h : ws.Mirrors disk) (h' : other.Mirrors disk)
    (hsettled : ws.Settled) (hsettled' : other.Settled) (hconfig : other.config = ws.config)
    (hpackages : other.packages = ws.packages) : ws.ModelsWithin other := by
  intro l u hu hmodel
  have hwell := hsettled.wellFormed l u hu
  obtain ⟨hfile, htext⟩ := h.unit_file l u hu hmodel
  have hnot := hwell.isManifest_eq_false hmodel
  obtain ⟨v, hv, hmodel'⟩ := (h'.file_unit l u.text htext (hconfig ▸ hfile)
    (hconfig ▸ hnot) (hpackages ▸ hsettled.owned l u hu hmodel)).resolve_left id
  obtain ⟨-, htext'⟩ := h'.unit_file l v hv hmodel'
  have hwell' := hsettled'.wellFormed l v hv
  have hsame : v.text = u.text := Option.some.inj (htext'.symm.trans htext)
  refine ⟨v, hv, hmodel', hwell'.location_eq.trans hwell.location_eq.symm, ?_, hsame, ?_⟩
  · exact (isModel_eq_true_iff.mp hmodel').trans (isModel_eq_true_iff.mp hmodel).symm
  · rw [hwell'.document_eq hmodel', hwell.document_eq hmodel, hsame]

/-! ## Names in order are determined -/

/-- Identifiers before a location are the same if the units before it have the same
entries. -/
theorem Settled.mem_idsBefore_of_samePlaces (h : ws.Settled) {s : Set Location}
    (htracked : ∀ l u, ws.units.get? l = some u → u.isModel = true → l ∈ s)
    (hbefore : ∀ f ∈ s, f < l → SamePlaces (ws.index.entriesIn f) (other.index.entriesIn f))
    (hother : other.Settled) {id : String} (hid : id ∈ ws.index.idsBefore l) :
    id ∈ other.index.idsBefore l := by
  obtain ⟨e, he, rfl⟩ := List.mem_map.mp hid
  obtain ⟨hmem, hlt⟩ := List.mem_filter.mp he
  obtain ⟨u, hu, hmodel⟩ := h.tracked e hmem
  have hsame := hbefore _ (htracked _ u hu hmodel) (of_decide_eq_true hlt)
  obtain ⟨twin, htwin, heq⟩ := List.mem_map.mp
    ((hsame _).mp (mem_namedPlaces_of_mem (h.mem_entriesIn.mpr ⟨hmem, rfl⟩)))
  obtain ⟨hentry, hl⟩ := hother.mem_entriesIn.mp htwin
  refine List.mem_map.mpr ⟨twin, List.mem_filter.mpr ⟨hentry, ?_⟩, (Prod.mk.inj heq).1⟩
  rw [hl]
  exact hlt

/-- Two workspaces in order with the same model units give them the same names, one unit
after the other. -/
theorem Settled.samePlaces_entriesIn (h : ws.Settled) (h' : other.Settled)
    (hpackages : other.packages = ws.packages) (hwithin : ws.ModelsWithin other)
    (hwithin' : other.ModelsWithin ws) (horder : ws.InOrder) (horder' : other.InOrder)
    (hu : ws.units.get? l = some u) (hmodel : u.isModel = true) :
    SamePlaces (ws.index.entriesIn l) (other.index.entriesIn l) := by
  let s : Set Location := {f | ∃ u, ws.units.get? f = some u ∧ u.isModel = true}
  have hfinite : s.Finite := by
    refine (List.finite_toSet ws.units.keys).subset ?_
    rintro f ⟨u, hu, -⟩
    exact LocationMap.mem_keys_iff.mpr ⟨u, hu⟩
  have horder_strict : IsStrictOrder Location (· < ·) :=
    { irrefl := Location.lt_irrefl, trans := fun _ _ _ => Location.lt_trans }
  have hwell : s.WellFoundedOn (· < ·) := hfinite.wellFoundedOn
  have hmem : l ∈ s := ⟨u, hu, hmodel⟩
  -- there are finitely many units, so the induction is on the units at smaller locations
  refine hwell.induction (P := fun f => SamePlaces (ws.index.entriesIn f)
    (other.index.entriesIn f)) hmem ?_
  rintro f ⟨v, hv, hkind⟩ ih
  obtain ⟨w, hw, hkind', hsource⟩ := hwithin f v hv hkind
  have hids : ∀ id, id ∈ ws.index.idsBefore f ↔ id ∈ other.index.idsBefore f := by
    intro id
    constructor
    · refine h.mem_idsBefore_of_samePlaces (s := s) ?_ ih h'
      exact fun _ u hu hmodel => ⟨u, hu, hmodel⟩
    · refine h'.mem_idsBefore_of_samePlaces ?_ (fun g hg hlt => (ih g hg hlt).symm) h
      intro g u hu hmodel
      obtain ⟨u', hu', hmodel', -⟩ := hwithin' g u hu hmodel
      exact ⟨u', hu', hmodel'⟩
  have hgiven : v.entriesGiven ws.packages (ws.index.idsBefore f) =
      w.entriesGiven other.packages (other.index.idsBefore f) := by
    rw [hpackages, hsource.entriesGiven_eq, entriesGiven_congr hids]
  have hleft := horder f v hv hkind
  rw [hgiven] at hleft
  exact hleft.trans (horder' f w hw hkind').symm

theorem Settled.sameElements_of_inOrder (h : ws.Settled) (h' : other.Settled)
    (hpackages : other.packages = ws.packages) (hwithin : ws.ModelsWithin other)
    (hwithin' : other.ModelsWithin ws) (horder : ws.InOrder) (horder' : other.InOrder) :
    ws.index.SameElements other.index := by
  -- every entry belongs to a unit, so it is enough to look at the units
  have hsub : ∀ {a b : Workspace}, a.Settled → b.Settled →
      (∀ f u, a.units.get? f = some u → u.isModel = true →
        SamePlaces (a.index.entriesIn f) (b.index.entriesIn f)) →
      ∀ named ∈ namedPlaces a.index.entries, named ∈ namedPlaces b.index.entries := by
    intro a b ha hb hunits named hnamed
    obtain ⟨e, he, rfl⟩ := List.mem_map.mp hnamed
    obtain ⟨u, hu, hmodel⟩ := ha.tracked e he
    have hown := mem_namedPlaces_of_mem (ha.mem_entriesIn.mpr ⟨he, rfl⟩)
    obtain ⟨twin, htwin, heq⟩ := List.mem_map.mp ((hunits _ u hu hmodel _).mp hown)
    exact List.mem_map.mpr ⟨twin, (hb.mem_entriesIn.mp htwin).1, heq⟩
  refine (Index.sameElements_iff h.coherent h'.coherent).mpr fun named => ⟨?_, ?_⟩
  · refine hsub h h' (fun f u hu hmodel => ?_) named
    exact h.samePlaces_entriesIn h' hpackages hwithin hwithin' horder horder' hu hmodel
  · refine hsub h' h (fun f u hu hmodel => ?_) named
    exact h'.samePlaces_entriesIn h hpackages.symm hwithin' hwithin horder' horder hu hmodel

/-- Whoever knows the same identifiers as a workspace in order is in order. -/
theorem Settled.inOrder_of_sameElements (h : ws.Settled) (h' : other.Settled)
    (hpackages : other.packages = ws.packages) (hwithin : ws.ModelsWithin other)
    (horder : other.InOrder) (hsame : ws.index.SameElements other.index) : ws.InOrder := by
  intro l u hu hmodel
  obtain ⟨v, hv, hmodel', hsource⟩ := hwithin l u hu hmodel
  have hplaces := (Index.sameElements_iff h.coherent h'.coherent).mp hsame
  have hbefore := hplaces.filter fun f => decide (f < l)
  have hids : ∀ id, id ∈ ws.index.idsBefore l ↔ id ∈ other.index.idsBefore l :=
    fun id => ⟨hbefore.mem_ids, hbefore.symm.mem_ids⟩
  have hown : SamePlaces (ws.index.entriesIn l) (other.index.entriesIn l) := by
    rw [h.coherent.entriesIn_eq, h'.coherent.entriesIn_eq]
    exact hplaces.filter fun f => decide (f = l)
  rw [entriesGiven_congr hids, ← hsource.entriesGiven_eq, ← hpackages]
  exact hown.trans (horder l v hv hmodel')

end Workspace

/-! ## Indexing everything -/

namespace Build

variable {old : Workspace} {b : Build} {l : Location} {u : SourceUnit}

/-- If all units are indexed, each one is named behind those before it. -/
theorem Prepared.entriesIn_of_cleared (h : Prepared old b)
    (hcleared : b.clearedIndex.entries = []) (hu : b.workspace.units.get? l = some u)
    (hready : isReady u = true) :
    b.indexBehind.entriesIn l =
      u.entriesGiven b.workspace.packages (b.indexBehind.idsBefore l) := by
  have hids : b.clearedIndex.ids = [] := by
    unfold Index.ids
    rw [hcleared]
    rfl
  unfold Index.idsBefore
  rw [h.toLoading.entries_indexBehind.2, hcleared, List.nil_append,
    h.entriesIn_of_ready hu hready, hids, List.nil_append]

/-- If packages have changed, or nothing was there before, names are in order. -/
theorem Prepared.inOrder (h : Prepared old b) (hold : old.Settled) {next : Workspace}
    (hall : next.packages ≠ old.packages ∨ old.units = LocationMap.empty)
    (hpackages : next.packages = b.workspace.packages) (hindex : next.index = b.indexBehind)
    (hunits : ∀ l u, next.units.get? l = some u →
      ∃ v, b.workspace.units.get? l = some v ∧ SameSource v u) : next.InOrder := by
  have hcleared : b.clearedIndex.entries = [] := by
    rcases hall with hne | hnone
    · refine h.entries_clearedIndex_of_changed hold ?_
      cases hchanged : b.packagesChanged with
      | true => rfl
      | false => exact absurd (hpackages.trans (h.packages_eq hchanged)) hne
    · rw [h.toLoading.entries_clearedIndex.2, List.filter_eq_nil_iff]
      intro e he
      obtain ⟨u, hu, -⟩ := hold.tracked e he
      rw [hnone] at hu
      cases hu
  intro l u hu hmodel
  obtain ⟨v, hv, hsource⟩ := hunits l u hu
  have hready : isReady v = true := by
    rcases h.ready_or_old hv (hsource.isModel_eq.symm.trans hmodel) with hready | hkept
    · exact hready
    · -- a unit that is not indexed was there before, among the same packages
      obtain ⟨-, hchanged, -, hbefore⟩ := hkept
      rcases hall with hne | hnone
      · exact absurd (hpackages.trans (h.packages_eq hchanged)) hne
      · rw [hnone] at hbefore
        cases hbefore
  rw [hindex, hpackages, hsource.entriesGiven_eq]
  exact SamePlaces.of_eq (h.entriesIn_of_cleared hcleared hv hready)

end Build
end ModelWorkspace
