import ModelWorkspace.Proofs.Document.CutShort
import ModelWorkspace.Proofs.Workspace.Isolation
import ModelWorkspace.Proofs.Workspace.Offers

/-!
# Completion while typing

Completion at a cursor reads the text in front of it only, with a name put in there.  If the cursor
is in a dotted name that refers to something, then the name which is put in ends the only reference
that ends there, and this is made by an element of the same kind and by the same property as that
in the whole file; so the same may be named.  What is offered is what is offered for the property,
as far as it begins with what has been typed (`run_completions_typed`).
-/

namespace ModelWorkspace

section Sorting

variable {α : Type*} {le : α → α → Bool}

/-- What is less than something stands in front of the rest. -/
theorem takeWhile_append_eq {x : α} {front behind : List α} (hfront : ∀ y ∈ front, (!le x y) = true)
    (hbehind : ∀ y ∈ behind, le x y = true) :
    (front ++ behind).takeWhile (!le x ·) = front ∧
      (front ++ behind).dropWhile (!le x ·) = behind := by
  rw [List.takeWhile_append_of_pos hfront, List.dropWhile_append_of_pos hfront]
  cases behind with
  | nil => exact ⟨List.append_nil _, rfl⟩
  | cons y behind =>
      have hy := hbehind y List.mem_cons_self
      rw [List.takeWhile_cons_of_neg (by simp [hy]), List.dropWhile_cons_of_neg (by simp [hy])]
      exact ⟨List.append_nil _, rfl⟩

/-- Sorting keeps the order of what is left if something is taken out before. -/
theorem filter_mergeSort (htrans : ∀ a b c, le a b = true → le b c = true → le a c = true)
    (htotal : ∀ a b, (le a b || le b a) = true) (p : α → Bool) (xs : List α) :
    (xs.mergeSort le).filter p = (xs.filter p).mergeSort le := by
  have hbehind : ∀ {x front behind xs}, List.mergeSort xs le = front ++ x :: behind →
      ∀ y ∈ behind, le x y = true := by
    intro x front behind xs hsorted
    have hpairwise := hsorted ▸ List.pairwise_mergeSort htrans htotal xs
    exact (List.pairwise_cons.mp (List.pairwise_append.mp hpairwise).2.1).1
  induction xs with
  | nil => rw [List.mergeSort_nil, List.filter_nil, List.mergeSort_nil]
  | cons x xs ih =>
      obtain ⟨front, behind, hsorted, hothers, hfront⟩ := List.mergeSort_cons htrans htotal x xs
      rw [hothers, List.filter_append] at ih
      rw [hsorted, List.filter_append]
      by_cases hp : p x = true
      · obtain ⟨front', behind', hsorted', hothers', hfront'⟩ :=
          List.mergeSort_cons htrans htotal x (xs.filter p)
        rw [List.filter_cons_of_pos hp, List.filter_cons_of_pos hp, hsorted']
        -- both lists are split where what is not less than `x` begins
        rw [hothers'] at ih
        obtain ⟨htake, hdrop⟩ := takeWhile_append_eq
          (fun y hy => hfront y (List.mem_of_mem_filter hy))
          fun y hy => hbehind hsorted y (List.mem_of_mem_filter hy)
        obtain ⟨htake', hdrop'⟩ := takeWhile_append_eq hfront' (hbehind hsorted')
        rw [ih] at htake hdrop
        rw [← htake, htake', ← hdrop, hdrop']
      · rw [List.filter_cons_of_neg hp, List.filter_cons_of_neg hp]
        exact ih

end Sorting

namespace CompletionItem

theorem precedes_iff {a b : CompletionItem} : a.precedes b = true ↔
    a.priority < b.priority ∨ a.priority = b.priority ∧ a.label ≤ b.label := by
  simp [precedes]

theorem precedes_trans (a b c : CompletionItem) (hab : a.precedes b = true)
    (hbc : b.precedes c = true) : a.precedes c = true := by
  rw [precedes_iff] at hab hbc ⊢
  rcases hab with hab | ⟨hab, hlabel⟩
  · exact .inl (by omega)
  · rcases hbc with hbc | ⟨hbc, hlabel'⟩
    · exact .inl (by omega)
    · exact .inr ⟨hab.trans hbc, le_trans hlabel hlabel'⟩

theorem precedes_total (a b : CompletionItem) : (a.precedes b || b.precedes a) = true := by
  rw [Bool.or_eq_true, precedes_iff, precedes_iff]
  rcases Nat.lt_trichotomy a.priority b.priority with h | h | h
  · exact .inl (.inl h)
  · exact (le_total a.label b.label).imp (.inr ⟨h, ·⟩) (.inr ⟨h.symm, ·⟩)
  · exact .inr (.inl h)

end CompletionItem

namespace Workspace

variable {ws : Workspace} {l : Location} {u : SourceUnit} {root root' element element' : Element}
  {path path' : ElementPath} {property : String} {spec : ReferenceSpec}

/-- If nothing has been typed, all candidates are offered. -/
theorem completionItems_nil (ws : Workspace) (l : Location) (root : Element) (path : ElementPath)
    (property : String) : ws.completionItems l root path property [] =
      ((ws.linker.candidates l root path property).map CompletionItem.ofCandidate).mergeSort
        CompletionItem.precedes := by
  unfold completionItems
  dsimp only
  rw [List.filter_eq_self.mpr fun c _ => List.isPrefixOf_nil_left]

/-- What has been typed restricts the offers. -/
theorem completionItems_typed (ws : Workspace) (l : Location) (root : Element) (path : ElementPath)
    (property : String) (typed : List Char) :
    ws.completionItems l root path property typed =
      (ws.completionItems l root path property []).filter fun item =>
        typed.isPrefixOf item.label.toList := by
  rw [completionItems_nil, filter_mergeSort CompletionItem.precedes_trans
    CompletionItem.precedes_total, List.filter_map]
  rfl

/-- Where neither an anchor nor an object matters, the offers are the same for all elements of a
kind. -/
theorem completionItems_congr (hwalk : root.walk path = some element)
    (hspec : element.kind.reference? property = some spec)
    (hwalk' : root'.walk path' = some element') (hkind : element'.kind = element.kind)
    (hanchor : spec.anchor = none) (hqualifier : spec.qualifier = none) (typed : List Char) :
    ws.completionItems l root' path' property typed =
      ws.completionItems l root path property typed := by
  have hnone : ∀ root, ws.linker.objectCandidates (ws.linker.origin l) root spec = [] := by
    intro root
    unfold Linker.objectCandidates
    rw [hqualifier]
  unfold completionItems
  rw [Linker.candidates_eq hwalk hspec hanchor,
    Linker.candidates_eq hwalk' (hkind ▸ hspec) hanchor, hnone, hnone]

/-- References that stand apart do not end at the same place. -/
theorem exists_referenceEndingAt? {s : ElementKind × ReferenceSite}
    (hfilled : ∀ s ∈ root.sites, s.2.range.start < s.2.range.stop)
    (hapart : root.sites.Pairwise fun a b => a.2.range.Apart b.2.range) (hs : s ∈ root.sites) :
    ∃ path element, (path, element) ∈ root.descendants ∧ element.kind = s.1 ∧
      referenceEndingAt? root s.2.range.stop = some (path, s.2) := by
  have hmem : ∀ {path element site}, (path, element) ∈ root.descendants →
      site ∈ element.references → (element.kind, site) ∈ root.sites :=
    fun hdescendant hsite =>
      List.mem_flatMap.mpr ⟨_, hdescendant, List.mem_map_of_mem hsite⟩
  cases hfound : referenceEndingAt? root s.2.range.stop with
  | none =>
      obtain ⟨described, hdescribed, hmade⟩ := List.mem_flatMap.mp hs
      obtain ⟨site, hsite, rfl⟩ := List.mem_map.mp hmade
      have hnone := List.findSome?_eq_none_iff.mp hfound described hdescribed
      have hnot := List.find?_eq_none.mp (Option.map_eq_none_iff.mp hnone) site hsite
      simp at hnot
  | some found =>
      obtain ⟨described, hdescribed, hsome⟩ := List.exists_of_findSome?_eq_some hfound
      obtain ⟨site, hsite, rfl⟩ := Option.map_eq_some_iff.mp hsome
      have hstop : site.range.stop = s.2.range.stop := by simpa using List.find?_some hsite
      have hsame : (described.2.kind, site) = s := by
        have hin := hmem hdescribed (List.mem_of_find?_eq_some hsite)
        have hsymm : Std.Symm fun a b : ElementKind × ReferenceSite => a.2.range.Apart b.2.range :=
          ⟨fun _ _ h => h.symm⟩
        have hwidth : site.range.start < site.range.stop := hfilled _ hin
        by_contra hne
        have hother : site.range.Apart s.2.range := hapart.forall hin hs hne
        have hwidth' := hfilled s hs
        unfold TextRange.Apart at hother
        omega
      subst hsame
      exact ⟨described.1, described.2, hdescribed, rfl, rfl⟩

/-- What is put in at a cursor is a name, and no exponent. -/
theorem isSegment_cursorName :
    IsSegment cursorName.toList ∧ Scan.exponentLength cursorName.toList = 0 :=
  ⟨⟨'_', "_tessera_completion".toList, by decide +kernel, by decide,
      List.all_eq_true.mp (by decide +kernel)⟩, by decide +kernel⟩

/-- At a cursor in a dotted name that refers to something in the whole text, the offers are those
for an element of the same kind and for the same property, restricted by what has been typed. -/
theorem exists_completionItems {text : String} {front typed post behind : List Char}
    (hdotted : IsDottedName (typed ++ post))
    (htext : text.toList = front ++ (typed ++ post ++ behind))
    (hroot : (Document.ofText text).root = some root) {s : ElementKind × ReferenceSite}
    (hs : s ∈ root.sites) (hstart : s.2.range.start = byteWidth front) (ws : Workspace)
    (l : Location) :
    ∃ root' path' element', root'.walk path' = some element' ∧ element'.kind = s.1 ∧
      ws.completionsAtOffset l text (byteWidth (front ++ typed)) =
        ws.completionItems l root' path' s.2.property typed := by
  -- the text in front of the cursor refers to the same by the name that is put in
  have htyping : Typing front typed post behind cursorName.toList text
      (String.ofList (front ++ typed) ++ cursorName) := by
    obtain ⟨hsegment, hexponent⟩ := isSegment_cursorName
    refine ⟨hdotted, hsegment, hexponent, htext, ?_⟩
    rw [String.toList_append, String.toList_ofList, List.append_assoc]
  obtain ⟨root', hroot', s', hs', hkind, hproperty, hrange⟩ := htyping.exists_site hroot hs hstart
  obtain ⟨hfilled, hapart⟩ := Outline.apart_sites hroot'
  obtain ⟨path', element', hdescendant, hkind', hfound⟩ :=
    exists_referenceEndingAt? hfilled hapart hs'
  have hlowered : root'.IsLowered := ⟨_, hroot'⟩
  refine ⟨root', path', element', Element.walk_of_mem_descendants hlowered.distinct hdescendant,
    hkind'.trans hkind, ?_⟩
  have hroot' : (Document.ofUnfinishedText (String.ofList (front ++ typed) ++ cursorName)).root =
      some root' := hroot'
  have hbefore : takeBytes (byteWidth (front ++ typed)) text.toList = some (front ++ typed) := by
    rw [htext, List.append_assoc, ← List.append_assoc]
    exact takeBytes_append (front ++ typed) (post ++ behind)
  have hstop : s'.2.range.stop = byteWidth (front ++ typed) + byteWidth cursorName.toList := by
    rw [hrange, byteWidth_append, Nat.add_assoc, ← byteWidth_append]
    rfl
  have hskipped : takeBytes s'.2.range.start (front ++ typed) = some front := by
    rw [hrange]
    exact takeBytes_append front typed
  simp only [completionsAtOffset, Option.bind_eq_bind, hbefore, Option.bind_some, hroot', ← hstop,
    hfound, hskipped, List.drop_left, Option.pure_def, Option.getD_some, hproperty]

/-- At a cursor in a dotted name that is written for a property without an anchor and without a
qualifier, the offers are those for the property that begin with what has been typed. -/
theorem Settled.completionsAtOffset_eq (h : ws.Settled) (hu : ws.unit? l = some u)
    (hroot : u.document.root = some root) (hwalk : root.walk path = some element)
    {site : ReferenceSite} (hsite : site ∈ element.references)
    (hspec : element.kind.reference? site.property = some spec) (hanchor : spec.anchor = none)
    (hqualifier : spec.qualifier = none) {word : List Char}
    (hword : site.range.slice? u.text = some word) (hdotted : IsDottedName word) {offset : Nat}
    (hstart : site.range.start ≤ offset) (hstop : offset ≤ site.range.stop) :
    ∃ typed, TextRange.slice? ⟨site.range.start, offset⟩ u.text = some typed ∧
      ws.completionsAtOffset l u.text offset =
        (ws.completions l path site.property).filter fun item =>
          typed.isPrefixOf item.label.toList := by
  obtain ⟨front, behind, htext, hfront, hwidth⟩ := TextRange.slice?_eq_some_iff.mp hword
  obtain ⟨typed, post, rfl, htyped⟩ := hdotted.exists_split
    (show offset - site.range.start ≤ byteWidth word by omega)
  have hplace : site.range.start + byteWidth typed = offset := by omega
  refine ⟨typed, TextRange.slice?_eq_some_iff.mpr ⟨front, post ++ behind, ?_, hfront, hplace⟩, ?_⟩
  · rw [htext, List.append_assoc]
  have hmade : (element.kind, site) ∈ root.sites :=
    List.mem_flatMap.mpr ⟨_, Element.mem_descendants_of_walk hwalk, List.mem_map_of_mem hsite⟩
  obtain ⟨root', path', element', hwalk', hkind, hoffers⟩ := exists_completionItems hdotted htext
    ((h.wellFormed l u hu).root_ofText hroot) hmade hfront.symm ws l
  rw [byteWidth_append, hfront, hplace] at hoffers
  have hknown : ws.root? l = some root := by
    unfold root?
    rw [hu]
    exact hroot
  rw [hoffers, completions, hknown,
    completionItems_congr hwalk hspec hwalk' hkind hanchor hqualifier]
  exact completionItems_typed ws l root path site.property typed

/-- **Completion while typing agrees with completion on the finished file.**  After every run, for
each reference of a tracked file that is written as a dotted name and belongs to a property without
an anchor and without a qualifier: at each offset from its start to its end, what is offered is what
is offered for the property of the element that makes the reference, as far as it begins with what
is written in front of the offset. -/
theorem run_completions_typed (config : WorkspaceConfig) (operations : List Operation) :
    ((Workspace.ofConfig config).run operations).GivesUnless (SplitBy operations) fun ws =>
      ∀ l u root path element, ws.unit? l = some u → u.document.root = some root →
        root.walk path = some element → ∀ site ∈ element.references, ∀ spec,
          element.kind.reference? site.property = some spec → spec.anchor = none →
          spec.qualifier = none → ∀ word, site.range.slice? u.text = some word →
            IsDottedName word →
            ∀ offset, site.range.start ≤ offset → offset ≤ site.range.stop →
              ∃ typed, TextRange.slice? ⟨site.range.start, offset⟩ u.text = some typed ∧
                ws.completionsAtOffset l u.text offset =
                  (ws.completions l path site.property).filter fun item =>
                    typed.isPrefixOf item.label.toList := by
  refine ((Settled.ofConfig config).run operations).mono ?_
  intro ws hsettled l u root path element hu hroot hwalk site hsite spec hspec hanchor hqualifier
    word hword hdotted offset
  exact hsettled.completionsAtOffset_eq hu hroot hwalk hsite hspec hanchor hqualifier hword hdotted

end Workspace

namespace Histories

open Change Workspace

/-- A package that depends on a second one and names an entity of it by the name of the package,
because there is one with the same identifier in the first package. -/
def qualified : List Change :=
  edits Disk.empty [packageAt "/p/package.json" "p" ["q"], packageAt "/q/package.json" "q" [],
    entityAt "/q/t.cm" "T", entityAt "/p/t.cm" "T", heirAt "/p/s.cm" "S" "q.T"]

/-- What is known of a reference: where and how it is written, what may be written at its property,
and the labels of the candidates. -/
structure WrittenReference where
  range : TextRange
  word : Option (List Char)
  spec : Option ReferenceSpec
  labels : List String
deriving DecidableEq

/-- What is known of the first reference of the root of a file, and what is written in a range. -/
def writtenAt (changes : List Change) (l : Location) (part : TextRange) :
    Option (WrittenReference × Option (List Char)) := do
  let ws ← (updates {} changes).toOption
  let u ← ws.unit? l
  let root ← u.document.root
  let site ← root.references.head?
  return (⟨site.range, site.range.slice? u.text, root.kind.reference? site.property,
    (ws.linker.candidates l root ElementPath.root site.property).map (·.label)⟩, part.slice? u.text)

theorem writtenAt_qualified : writtenAt qualified ⟨"/p/s.cm"⟩ ⟨34, 36⟩ =
    some (⟨⟨34, 37⟩, some ['q', '.', 'T'], some ⟨"superEntities", .entity, true, none, none⟩,
      ["S", "T", "q.T"]⟩, some ['q', '.']) := by
  decide +kernel

/-- Behind the dot, only the entity of the second package is left. -/
theorem run_completions_typed_qualified :
    ∃ ws u, updates {} qualified = .ok ws ∧ ws.unit? ⟨"/p/s.cm"⟩ = some u ∧
      TextRange.slice? ⟨34, 36⟩ u.text = some ['q', '.'] ∧
      (ws.completionsAtOffset ⟨"/p/s.cm"⟩ u.text 36).map (·.label) = ["q.T"] := by
  obtain ⟨ws, hrun, hall⟩ :=
    (run_completions_typed {} (qualified.map Change.operation)).exists_ok
      (not_splitBy (by decide +kernel))
  have hread : updates {} qualified = .ok ws := hrun
  have hfound := writtenAt_qualified
  unfold writtenAt at hfound
  rw [hread] at hfound
  simp only [Except.toOption, Option.bind_eq_bind, Option.bind_some, Option.pure_def,
    Option.bind_eq_some_iff, Option.some.injEq, Prod.mk.injEq, WrittenReference.mk.injEq] at hfound
  obtain ⟨u, hu, root, hroot, site, hsite, ⟨hrange, hword, hspec, hlabels⟩, hpart⟩ := hfound
  have hdotted : IsDottedName ['q', '.', 'T'] :=
    @IsDottedName.dotted ['q'] ['T'] ⟨'q', [], rfl, by decide, List.forall_mem_nil _⟩
      (.name ⟨'T', [], rfl, by decide, List.forall_mem_nil _⟩)
  obtain ⟨typed, htyped, hoffers⟩ := hall _ u root ElementPath.root root hu hroot rfl site
    (List.mem_of_mem_head? hsite) _ hspec rfl rfl _ hword hdotted 36 (by rw [hrange]; decide)
    (by rw [hrange]; decide)
  rw [hrange, hpart] at htyped
  obtain rfl := Option.some.inj htyped
  refine ⟨ws, u, hread, hu, hpart, ?_⟩
  -- one candidate is left, however the offers are sorted
  have hroot' : ws.root? ⟨"/p/s.cm"⟩ = some root := by
    unfold root?
    rw [hu]
    exact hroot
  have hsorted : ((ws.completions ⟨"/p/s.cm"⟩ ElementPath.root site.property).map
      (·.label)).Perm ["S", "T", "q.T"] := by
    rw [completions, hroot']
    dsimp only
    rw [completionItems_nil]
    refine ((List.mergeSort_perm _ _).map _).trans (.of_eq ?_)
    rw [List.map_map]
    exact hlabels
  have hleft := hsorted.filter fun label => List.isPrefixOf ['q', '.'] label.toList
  rw [List.filter_map] at hleft
  rw [hoffers]
  exact List.perm_singleton.mp hleft

end Histories
end ModelWorkspace
