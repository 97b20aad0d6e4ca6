import ModelWorkspace.Proofs.Link.Owners
import ModelWorkspace.Proofs.Workspace.Navigation

/-!
# Paths address elements one to one

`descendants` lists an element of a tree for each of its paths, and `walk` follows a path from the
root.  A feature is written once in an element that is made of a text, so both mean the same: a
path is listed once, with the element that it leads to, behind the path of the container; and a
path that is not listed leads nowhere (`Element.IsAddressed`).  Elements are listed in the order in
which they begin in the text, so two paths do not share an element either.

A workspace keeps paths in place of elements, in its index, in the links of its units and in what
it is asked for.  Behind every run all of them are listed in the tree that is parsed now, each with
the element that is meant (`Workspace.IsAddressed`).
-/

namespace ModelWorkspace
namespace Element

variable {root e : Element} {path : ElementPath}

/-- The paths of a tree and the elements in it belong to each other. -/
structure IsAddressed (root : Element) : Prop where
  /-- No path is listed twice, -/
  listedOnce : (root.descendants.map (·.1)).Nodup
  /-- a path leads to the element with which it is listed, -/
  walk_iff : ∀ path e, root.walk path = some e ↔ (path, e) ∈ root.descendants
  /-- and to none if it is not listed. -/
  lost_iff : ∀ path, root.walk path = none ↔ path ∉ root.descendants.map (·.1)
  /-- The container of a listed element is listed before it. -/
  container : ∀ before path e after, root.descendants = before ++ (path, e) :: after →
    path ≠ ElementPath.root →
      ∃ parent container, path.parent? = some parent ∧ (parent, container) ∈ before
  /-- No element is listed under two paths. -/
  onePath : ∀ path other e, (path, e) ∈ root.descendants → (other, e) ∈ root.descendants →
    path = other

/-! ## Listing and walking -/

theorem walk_eq_some_iff (h : root.HasDistinctFeatures) :
    root.walk path = some e ↔ (path, e) ∈ root.descendants :=
  ⟨mem_descendants_of_walk, walk_of_mem_descendants h⟩

theorem nodup_descendants (h : root.HasDistinctFeatures) :
    (root.descendants.map (·.1)).Nodup := by
  refine List.pairwise_map.mpr ((pairwise_descendants h).imp ?_)
  intro a b hbegins heq
  exact hbegins (heq ▸ List.prefix_rfl)

/-- A path that leads somewhere is listed, so the others lead nowhere. -/
theorem walk_eq_none_iff (h : root.HasDistinctFeatures) :
    root.walk path = none ↔ path ∉ root.descendants.map (·.1) := by
  rw [List.mem_map, Option.eq_none_iff_forall_ne_some]
  constructor
  · rintro hnone ⟨described, hmem, rfl⟩
    exact hnone _ (walk_of_mem_descendants h hmem)
  · intro hnot e hwalk
    exact hnot ⟨_, mem_descendants_of_walk hwalk, rfl⟩

/-- On the way to an element its container is passed. -/
theorem exists_walk_parent? (h : root.walk path = some e) (hne : path ≠ ElementPath.root) :
    ∃ parent container, path.parent? = some parent ∧ root.walk parent = some container := by
  have hsplit : path.dropLast ++ [path.getLast hne] = path := List.dropLast_append_getLast hne
  rw [← hsplit, walk_append] at h
  obtain ⟨container, hcontainer, -⟩ := Option.bind_eq_some_iff.mp h
  exact ⟨path.dropLast, container, if_neg hne, hcontainer⟩

/-! ## The order in which elements begin -/

/-- Elements are listed in the order in which they begin. -/
theorem pairwise_starts (hdistinct : root.HasDistinctFeatures) (hnested : root.All IsNested)
    (hspaced : root.All IsSpaced) :
    root.descendants.Pairwise fun a b => a.2.range.start < b.2.range.start := by
  have hordered := (pairwise_descendants hdistinct).and (pairwise_places hnested ElementPath.root)
  refine hordered.imp_of_mem fun {a b} ha hb ⟨hlater, hplaced⟩ => ?_
  have hhere : a.2.IsSpaced := hspaced.of_mem_descendants ha
  rcases hplaced with hbelow | hbehind
  · -- what is nested begins behind the element around it
    obtain ⟨range, hrange, hwithin, -⟩ :=
      Workspace.exists_childRange_of_prefix hdistinct hnested ha hb hbelow hlater
    exact Nat.lt_of_lt_of_le (hhere.behind range hrange) hwithin
  · exact Nat.lt_of_lt_of_le hhere.filled hbehind

theorem isAddressed (hdistinct : root.HasDistinctFeatures) (hnested : root.All IsNested)
    (hspaced : root.All IsSpaced) : root.IsAddressed where
  listedOnce := nodup_descendants hdistinct
  walk_iff := fun _ _ => walk_eq_some_iff hdistinct
  lost_iff := fun _ => walk_eq_none_iff hdistinct
  container := by
    intro before path e after hsplit hne
    have hmem : (path, e) ∈ root.descendants :=
      hsplit ▸ List.mem_append_right _ List.mem_cons_self
    obtain ⟨parent, container, hparent, hwalk⟩ :=
      exists_walk_parent? (walk_of_mem_descendants hdistinct hmem) hne
    exact ⟨parent, container, hparent,
      Linker.mem_before_of_parent? hdistinct hsplit hparent hwalk⟩
  onePath := by
    intro path other e hpath hother
    by_contra hne
    have hsymm : Std.Symm fun a b : ElementPath × Element => a.2.range.start ≠ b.2.range.start :=
      ⟨fun _ _ h => h.symm⟩
    have hapart : root.descendants.Pairwise fun a b => a.2.range.start ≠ b.2.range.start :=
      (pairwise_starts hdistinct hnested hspaced).imp Nat.ne_of_lt
    exact hapart.forall hpath hother (fun heq => hne (Prod.mk.inj heq).1) rfl

/-- What is made of a text, whether it is finished or not, is addressed by its paths. -/
theorem isAddressed_ofText (unfinished : Bool) {text : String}
    (h : (Lowering.root (Outline.ofTree (Parse.ofText unfinished text).tree)).1 = some root) :
    root.IsAddressed := by
  have hlowered : root.IsLowered := ⟨_, h⟩
  have hnested : ∀ m ∈ Outline.ofTree (Parse.ofText unfinished text).tree, m.Nested :=
    Outline.nested_members 0 _
  exact isAddressed hlowered.distinct (Lowering.nested_root hnested h)
    (Lowering.spaced_root (Outline.spaced_ofText unfinished text) hnested h)

end Element

/-! ## Paths in the links of a unit -/

namespace Linker

variable {linker : Linker} {l : Location} {root : Element} {path : ElementPath} {property : String}

/-- A reference is linked under the path of the element that makes it. -/
theorem exists_of_mem_references_link {r : LinkedReference}
    (hr : r ∈ (linker.link l root).references) :
    ∃ element, (r.path, element) ∈ root.descendants ∧ r.site ∈ element.references := by
  obtain ⟨described, hmem, hpath, hsite, -⟩ := (linkedOf_foldl root.descendants).sound r hr
  exact ⟨described.2, by rw [hpath]; exact hmem, hsite⟩

/-- A member is shown under the path of an element that shows members. -/
theorem exists_of_mem_implicit_link {m : ImplicitMember}
    (hm : m ∈ (linker.link l root).implicit) :
    ∃ element, (m.owner, element) ∈ root.descendants ∧ element.kind.derivesMembers = true := by
  have hfold : ∀ (described : List (ElementPath × Element)) (links : Links),
      m ∈ (described.foldl (linker.linkElement (linker.origin l) root) links).implicit →
        m ∈ links.implicit ∨
          ∃ d ∈ described, d.1 = m.owner ∧ d.2.kind.derivesMembers = true := by
    intro described
    induction described with
    | nil => exact fun links h => .inl h
    | cons d rest ih =>
        intro links h
        rcases ih _ h with hlinked | ⟨other, hother, hshows⟩
        · rw [implicit_linkElement] at hlinked
          refine (List.mem_append.mp hlinked).imp_right fun hnew => ?_
          refine ⟨d, List.mem_cons_self, (owner_of_mem_implicitMembers hnew).symm, ?_⟩
          -- an element of another kind shows none
          by_contra hnot
          rw [implicitMembers, if_neg hnot] at hnew
          exact List.not_mem_nil hnew
        · exact .inr ⟨other, List.mem_cons_of_mem _ hother, hshows⟩
  obtain ⟨d, hd, howner, hshows⟩ :=
    (hfold root.descendants {} hm).resolve_left List.not_mem_nil
  exact ⟨d.2, by rw [← howner]; exact hd, hshows⟩

/-- There are candidates for a path only if it leads to an element that has the property. -/
theorem exists_of_mem_candidates {c : Candidate} (hc : c ∈ linker.candidates l root path property) :
    ∃ element, (path, element) ∈ root.descendants ∧
      (element.kind.reference? property).isSome = true := by
  unfold candidates at hc
  split at hc
  · exact absurd hc List.not_mem_nil
  · rename_i spec hspec
    obtain ⟨element, hwalk, hreference⟩ := Option.bind_eq_some_iff.mp hspec
    exact ⟨element, Element.mem_descendants_of_walk hwalk, Option.isSome_of_eq_some hreference⟩

end Linker

theorem exists_of_mem_getD_nil {α : Type*} {found : Option (List α)} {x : α}
    (h : x ∈ found.getD []) : ∃ xs, found = some xs ∧ x ∈ xs := by
  cases found with
  | none => exact absurd h List.not_mem_nil
  | some xs => exact ⟨xs, rfl, h⟩

namespace Workspace

variable {ws : Workspace} {l : Location} {path : ElementPath}

/-- An element is listed with a path in what is parsed of a file. -/
def Lists (ws : Workspace) (l : Location) (path : ElementPath) (element : Element) : Prop :=
  ∃ root, ws.root? l = some root ∧ (path, element) ∈ root.descendants

/-- Whatever a workspace says of a path in a file, it says of the element that is listed with
it. -/
structure IsAddressed (ws : Workspace) : Prop where
  /-- The elements of a file and their paths belong to each other. -/
  tree : ∀ l root, ws.root? l = some root → root.IsAddressed
  /-- An entry of the index stands for the element that is listed with its path, -/
  entry : ∀ entry ∈ ws.index.entries, ∃ element, ws.Lists entry.location entry.path element ∧
    element.kind = entry.kind ∧ ws.resolveElement entry = some element
  /-- and no other entry does. -/
  oneEntry : ∀ a ∈ ws.index.entries, ∀ b ∈ ws.index.entries, a.location = b.location →
    a.path = b.path → a = b
  /-- A reference is one of the element that is listed with its path. -/
  reference : ∀ l, ∀ r ∈ ws.references l, ∃ element, ws.Lists l r.path element ∧
    r.site ∈ element.references
  /-- A member is shown by the element that is listed with the path of its owner. -/
  member : ∀ l, ∀ m ∈ ws.implicitMembers l, ∃ element, ws.Lists l m.owner element ∧
    element.kind.derivesMembers = true
  /-- What is found at a position is listed with the path that is told. -/
  position : ∀ l p path element, ws.elementAt l p = some (path, element) → ws.Lists l path element
  /-- Offers are made for the element that is listed with a path, -/
  offer : ∀ l path property, ∀ item ∈ ws.completions l path property,
    ∃ element, ws.Lists l path element ∧ (element.kind.reference? property).isSome = true
  /-- and while a text is typed, for one that is listed in the tree of what is there. -/
  typed : ∀ l text offset, ∀ item ∈ ws.completionsAtOffset l text offset,
    ∃ before root path element site typed, takeBytes offset text.toList = some before ∧
      (Document.ofUnfinishedText (String.ofList before ++ cursorName)).root = some root ∧
      root.IsAddressed ∧ (path, element) ∈ root.descendants ∧ site ∈ element.references ∧
      item ∈ ws.completionItems l root path site.property typed

/-- What is parsed of a file is made of its text. -/
theorem Settled.isAddressed_root (h : ws.Settled) {root : Element}
    (hroot : ws.root? l = some root) : root.IsAddressed := by
  obtain ⟨u, hu, hdocument⟩ := Option.bind_eq_some_iff.mp hroot
  exact Element.isAddressed_ofText false ((h.wellFormed l u hu).root_ofText hdocument)

/-- Two entries of a unit have different paths. -/
theorem Settled.eq_of_path_eq (h : ws.Settled) {a b : IndexEntry} (ha : a ∈ ws.index.entries)
    (hb : b ∈ ws.index.entries) (hlocation : a.location = b.location) (hpath : a.path = b.path) :
    a = b := by
  obtain ⟨u, hu, hmodel⟩ := h.tracked a ha
  obtain ⟨taken, hentries⟩ := h.entriesIn_eq _ u hu hmodel
  have hlisted : ∀ e ∈ ws.index.entries, e.location = a.location →
      e ∈ u.entriesGiven ws.packages taken := by
    intro e he hsame
    rw [← hentries, h.coherent.entriesIn_eq, List.mem_filter]
    exact ⟨he, decide_eq_true hsame⟩
  have hnodup : ((u.entriesGiven ws.packages taken).map (·.path)).Nodup := by
    unfold SourceUnit.entriesGiven
    split
    · rename_i plan hplan
      obtain ⟨-, hroot, -⟩ := SourceUnit.plan?_eq_some hplan
      have hlowered := Document.isLowered_root ((h.wellFormed _ u hu).root_ofText hroot)
      exact (plan.paths_newEntries_sublist taken).nodup
        (Element.nodup_descendants hlowered.distinct)
    · exact List.nodup_nil
  exact List.inj_on_of_nodup_map hnodup (hlisted a ha rfl) (hlisted b hb hlocation.symm) hpath

/-- The deepest element at a place is one of the tree. -/
theorem mem_of_elementAtOffset {root : Element} {offset : Nat} {found : ElementPath × Element}
    (h : elementAtOffset root offset = some found) : found ∈ root.descendants := by
  have hfold : ∀ (described : List (ElementPath × Element)) (best : Option (ElementPath × Element)),
      described.foldl deeperElement best = some found → best = some found ∨ found ∈ described := by
    intro described
    induction described with
    | nil => exact fun _ hbest => .inl hbest
    | cons next rest ih =>
        intro best hfound
        rcases ih _ hfound with hstep | hrest
        · unfold deeperElement at hstep
          split at hstep
          · exact .inr (Option.some.inj hstep ▸ List.mem_cons_self)
          · split at hstep
            · exact .inr (Option.some.inj hstep ▸ List.mem_cons_self)
            · exact .inl hstep
        · exact .inr (List.mem_cons_of_mem next hrest)
  exact List.mem_of_mem_filter ((hfold _ none h).resolve_left nofun)

theorem exists_candidate_of_mem_completionItems {root : Element} {property : String}
    {typed : List Char} {item : CompletionItem}
    (h : item ∈ ws.completionItems l root path property typed) :
    ∃ c, c ∈ ws.linker.candidates l root path property := by
  obtain ⟨c, hc, -⟩ := List.mem_map.mp ((List.mergeSort_perm _ _).mem_iff.mp h)
  exact ⟨c, List.mem_of_mem_filter hc⟩

/-- Only a unit with a tree has links, and they are those of the tree. -/
theorem Settled.exists_root_of_links (h : ws.Settled) {u : SourceUnit} (hu : ws.unit? l = some u)
    (hlinks : u.links ≠ {}) : ∃ root, ws.root? l = some root ∧ u.links = ws.linker.link l root := by
  cases hmodel : u.isModel with
  | false =>
      refine absurd ((h.wellFormed l u hu).unlinked ?_) hlinks
      rw [SourceUnit.isManifest_eq_not_isModel, hmodel]
      rfl
  | true =>
      have hlinked := h.links_eq hu hmodel
      cases hroot : u.document.root with
      | none =>
          rw [hroot] at hlinked
          exact absurd hlinked hlinks
      | some root =>
          rw [hroot] at hlinked
          exact ⟨root, Option.bind_eq_some_iff.mpr ⟨u, hu, hroot⟩, hlinked⟩

/-- What the links of a file list is listed when its tree is linked. -/
theorem Settled.exists_root_of_mem (h : ws.Settled) {α : Type} {listed : Links → List α} {x : α}
    (hnone : listed {} = []) (hx : x ∈ ((ws.unit? l).map (listed ·.links)).getD []) :
    ∃ root, ws.root? l = some root ∧ x ∈ listed (ws.linker.link l root) := by
  obtain ⟨xs, hxs, hmem⟩ := exists_of_mem_getD_nil hx
  obtain ⟨u, hu, rfl⟩ := Option.map_eq_some_iff.mp hxs
  obtain ⟨root, hroot, hlinked⟩ := h.exists_root_of_links hu fun hempty => by
    rw [hempty, hnone] at hmem
    exact List.not_mem_nil hmem
  exact ⟨root, hroot, hlinked ▸ hmem⟩

/-- In a settled workspace every path that is kept means the element that is listed with it. -/
theorem Settled.isAddressed (h : ws.Settled) : ws.IsAddressed where
  tree := fun _ _ => h.isAddressed_root
  entry := by
    intro entry hentry
    obtain ⟨-, -, -, ⟨element, hresolved, hkind⟩, -⟩ := h.entry hentry
    obtain ⟨root, hroot, hwalk⟩ := Option.bind_eq_some_iff.mp hresolved
    exact ⟨element, ⟨root, hroot, Element.mem_descendants_of_walk hwalk⟩, hkind, hresolved⟩
  oneEntry := fun _ ha _ hb => h.eq_of_path_eq ha hb
  reference := by
    intro l r hr
    obtain ⟨root, hroot, hlinked⟩ := h.exists_root_of_mem rfl hr
    obtain ⟨element, hmem, hsite⟩ := Linker.exists_of_mem_references_link hlinked
    exact ⟨element, ⟨root, hroot, hmem⟩, hsite⟩
  member := by
    intro l m hm
    obtain ⟨root, hroot, hlinked⟩ := h.exists_root_of_mem rfl hm
    obtain ⟨element, hmem, hshows⟩ := Linker.exists_of_mem_implicit_link hlinked
    exact ⟨element, ⟨root, hroot, hmem⟩, hshows⟩
  position := by
    intro l p path element hfound
    obtain ⟨u, hu, hfound⟩ := Option.bind_eq_some_iff.mp hfound
    obtain ⟨offset, -, hfound⟩ := Option.bind_eq_some_iff.mp hfound
    obtain ⟨root, hroot, hfound⟩ := Option.bind_eq_some_iff.mp hfound
    exact ⟨root, Option.bind_eq_some_iff.mpr ⟨u, hu, hroot⟩, mem_of_elementAtOffset hfound⟩
  offer := by
    intro l path property item hitem
    unfold completions at hitem
    split at hitem
    · rename_i root hroot
      obtain ⟨c, hc⟩ := exists_candidate_of_mem_completionItems hitem
      obtain ⟨element, hmem, hreference⟩ := Linker.exists_of_mem_candidates hc
      exact ⟨element, ⟨root, hroot, hmem⟩, hreference⟩
    · exact absurd hitem List.not_mem_nil
  typed := by
    intro l text offset item hitem
    obtain ⟨items, hitems, hitem⟩ := exists_of_mem_getD_nil hitem
    obtain ⟨before, hbefore, hitems⟩ := Option.bind_eq_some_iff.mp hitems
    obtain ⟨root, hroot, hitems⟩ := Option.bind_eq_some_iff.mp hitems
    obtain ⟨⟨path, site⟩, hsite, hitems⟩ := Option.bind_eq_some_iff.mp hitems
    obtain ⟨skipped, -, hitems⟩ := Option.bind_eq_some_iff.mp hitems
    cases hitems
    obtain ⟨⟨place, element⟩, hmem, hfound⟩ := List.exists_of_findSome?_eq_some hsite
    obtain ⟨made, hmade, hsame⟩ := Option.map_eq_some_iff.mp hfound
    cases hsame
    exact ⟨before, root, path, element, site, _, hbefore, hroot,
      Element.isAddressed_ofText true hroot, hmem, List.mem_of_find?_eq_some hmade,
      hitem⟩

/-- **Paths address elements one to one.**  In every tree that is made of a text, finished or not,
no path is listed twice, a path leads to the element with which it is listed and nowhere if it is
not listed, the container of an element is listed before it, and no element is listed under two
paths.  So behind every run, the paths that are kept in the index and in the links, those that are
found at positions and those that completion is asked for mean one and the same element each. -/
theorem paths_address_elements :
    (∀ text root, (Document.ofText text).root = some root ∨
      (Document.ofUnfinishedText text).root = some root → root.IsAddressed) ∧
    ∀ (config : WorkspaceConfig) (operations : List Operation),
      ((Workspace.ofConfig config).run operations).GivesUnless (SplitBy operations)
        IsAddressed := by
  refine ⟨fun text root h => ?_, fun config operations => ?_⟩
  · rcases h with hfinished | hunfinished
    · exact Element.isAddressed_ofText false hfinished
    · exact Element.isAddressed_ofText true hunfinished
  · exact ((Settled.ofConfig config).run operations).mono fun _ hsettled => hsettled.isAddressed

end Workspace

namespace Histories

open Change Workspace

/-- A mapping with an element two levels below its root, and a key of the first level written
twice. -/
def mappingText : String :=
  "mapping:\n  id: M\n  target:\n    entity: A\n    mappings:\n      - attribute: x\n" ++
    "        source: y\n  target:\n    entity: B\n"

/-- The element two levels below the root is listed behind its container and under no other path,
and the second target is not listed; and the reference of a file in a run is one of the element
that is listed with its path. -/
theorem paths_address_elements_mapping :
    (∃ root element, (Document.ofText mappingText).root = some root ∧
      ([⟨"target", 0⟩, ⟨"mappings", 0⟩], element) ∈ root.descendants ∧
      (∀ other, (other, element) ∈ root.descendants → other = [⟨"target", 0⟩, ⟨"mappings", 0⟩]) ∧
      [⟨"target", 1⟩] ∉ root.descendants.map (·.1)) ∧
    ∃ ws element, updates {} dependent = .ok ws ∧
      ∃ r ∈ ws.references ⟨"/p/s.cm"⟩, ws.Lists ⟨"/p/s.cm"⟩ r.path element ∧
        r.site ∈ element.references := by
  obtain ⟨htexts, hruns⟩ := paths_address_elements
  constructor
  · have hread : (Document.ofText mappingText).root.map (fun root =>
        ((root.walk [⟨"target", 0⟩, ⟨"mappings", 0⟩]).isSome,
          (root.walk [⟨"target", 1⟩]).isNone)) = some (true, true) := by
      decide +kernel
    obtain ⟨root, hroot, hwalks⟩ := Option.map_eq_some_iff.mp hread
    obtain ⟨hsome, hnone⟩ := Prod.mk.inj hwalks
    obtain ⟨element, hwalk⟩ := Option.isSome_iff_exists.mp hsome
    have haddressed := htexts mappingText root (.inl hroot)
    have hmem := (haddressed.walk_iff _ _).mp hwalk
    exact ⟨root, element, hroot, hmem, fun other hother => haddressed.onePath _ _ _ hother hmem,
      (haddressed.lost_iff _).mp (Option.isNone_iff_eq_none.mp hnone)⟩
  · obtain ⟨ws, hrun, haddressed⟩ := (hruns {} (dependent.map Change.operation)).exists_ok
      (not_splitBy (by decide +kernel))
    have hread : updates {} dependent = .ok ws := hrun
    have hlinked : (updates {} dependent).toOption.map (fun ws =>
        (ws.references ⟨"/p/s.cm"⟩).head?.isSome) = some true := by
      decide +kernel
    obtain ⟨r, hr⟩ := Option.isSome_iff_exists.mp (eq_of_updates hread hlinked)
    have hmem := List.mem_of_mem_head? hr
    obtain ⟨element, hlisted, hsite⟩ := haddressed.reference _ r hmem
    exact ⟨ws, element, hread, r, hmem, hlisted, hsite⟩

end Histories
end ModelWorkspace
