import ModelWorkspace.Document.Basic
import ModelWorkspace.Proofs.Name.Containment

/-!
# Who keeps a declared name

Siblings are named in the order they are written.  Each one that declares an identifier gets
the first variant of it that no sibling before it has got (`own_eq_ownName`).  So the first
one that declares an identifier keeps it, unless a sibling before it has got it without
declaring it: as a variant of another identifier, one with the number that was free, or as the
name of its place.  `own_eq_declared_iff` says that nothing else can happen.
-/

namespace ModelWorkspace
namespace Name

open Element

/-- The elements directly nested in an element, each with the name it has among them. -/
def namedChildren (e : Element) : List ((PathStep × Element) × String) :=
  e.childElements.zip (childNames e.children)

/-- The name of an element whose siblings before it have got some names. -/
def ownName (taken : List String) (x : PathStep × Element) : String :=
  match x.2.id with
  | some declared => fresh taken declared
  | none => synthetic x.1.feature x.1.index

/-- A sibling has got a name that it does not declare: it declares an identifier of which the
name is a variant, or none, and the name is that of its place. -/
def Anticipates (name : String) (x : (PathStep × Element) × String) : Prop :=
  x.2 = name ∧
    ((∃ base number, x.1.2.id = some base ∧ 1 ≤ number ∧ name = base ++ toString number) ∨
      x.1.2.id = none ∧ name = synthetic x.1.1.feature x.1.1.index)

/-! ## Siblings -/

theorem fresh_congr {taken others : List String} (h : ∀ id, id ∈ taken ↔ id ∈ others)
    (declared : String) : fresh taken declared = fresh others declared :=
  freshBy_congr Function.injective_id h declared

theorem fresh_eq_self_iff {taken : List String} {declared : String} :
    fresh taken declared = declared ↔ declared ∉ taken := by
  constructor
  · intro h hmem
    have hfree := freshBy_notMem Function.injective_id taken declared
    change fresh taken declared ∉ taken at hfree
    rw [h] at hfree
    exact hfree hmem
  · intro h
    exact freshBy_eq_self h

/-- A variant of a name that is not the name itself has a number behind it. -/
theorem exists_number_of_fresh_ne {taken : List String} {declared : String}
    (h : fresh taken declared ≠ declared) :
    ∃ number, 1 ≤ number ∧ fresh taken declared = declared ++ toString number := by
  unfold fresh freshBy at h ⊢
  cases hnumber : freeNumber id taken declared 0 with
  | zero =>
      rw [hnumber] at h
      exact absurd rfl h
  | succ number => exact ⟨number + 1, by omega, rfl⟩

theorem ownName_of_id {taken : List String} {x : PathStep × Element} {declared : String}
    (h : x.2.id = some declared) : ownName taken x = fresh taken declared := by
  unfold ownName
  rw [h]

/-- The names of siblings, one after the other: each avoids those before it and those that
were taken from the start. -/
theorem own_of_split (named : NamedSiblings) {xs : List (PathStep × Element)}
    {before behind : List ((PathStep × Element) × String)} {x : (PathStep × Element) × String}
    (h : xs.zip (siblingNames named (xs.map fun x => (x.1, x.2.id))) = before ++ x :: behind) :
    x.2 = ownName (before.map (·.2) ++ named.taken) x.1 := by
  induction xs generalizing named before with
  | nil => simp at h
  | cons first rest ih =>
      -- what the first sibling gets, it leaves to the others as taken
      have hstep : ∃ next : NamedSiblings,
          next.taken = ownName named.taken first :: named.taken ∧
          (first :: rest).zip (siblingNames named
              ((first :: rest).map fun x => (x.1, x.2.id))) =
            (first, ownName named.taken first) ::
              rest.zip (siblingNames next (rest.map fun x => (x.1, x.2.id))) := by
        rw [List.map_cons]
        unfold ownName
        cases hid : first.2.id with
        | some declared =>
            refine ⟨named.declare declared, ?_, ?_⟩
            · exact congrArg (· :: named.taken) (named.candidate_number declared)
            · rw [siblingNames, NamedSiblings.candidate_number, List.zip_cons_cons]
        | none =>
            refine ⟨named.add (synthetic first.1.feature first.1.index), rfl, ?_⟩
            rw [siblingNames, List.zip_cons_cons]
      obtain ⟨next, htaken, hnames⟩ := hstep
      rw [hnames] at h
      cases before with
      | nil =>
          obtain ⟨rfl, -⟩ := List.cons.inj h
          rfl
      | cons y before =>
          obtain ⟨rfl, hrest⟩ := List.cons.inj h
          have hsame : ∀ id, id ∈ before.map (·.2) ++ next.taken ↔
              id ∈ ((first, ownName named.taken first) :: before).map (·.2) ++ named.taken := by
            intro id
            rw [htaken]
            simp only [List.mem_append, List.map_cons, List.mem_cons]
            tauto
          rw [ih next hrest]
          unfold ownName
          cases x.1.2.id with
          | some declared => exact fresh_congr hsame declared
          | none => rfl

variable {e : Element} {before behind : List ((PathStep × Element) × String)}
  {x : (PathStep × Element) × String}

theorem map_namedChildren (e : Element) : (namedChildren e).map (·.1) = e.childElements := by
  unfold namedChildren
  rw [List.map_fst_zip]
  exact (length_childNames e.children).ge

/-- Every nested element gets its name with regard to its siblings before it. -/
theorem own_eq_ownName (h : namedChildren e = before ++ x :: behind) :
    x.2 = ownName (before.map (·.2)) x.1 := by
  have hown := own_of_split .empty h
  rwa [show NamedSiblings.empty.taken = [] from rfl, List.append_nil] at hown

/-- A sibling that has got a name declares it or anticipates it. -/
theorem anticipates_of_own (h : namedChildren e = before ++ x :: behind)
    (hdeclared : x.1.2.id ≠ some x.2) : Anticipates x.2 x := by
  refine ⟨rfl, ?_⟩
  have hown := own_eq_ownName h
  cases hid : x.1.2.id with
  | some base =>
      rw [ownName_of_id hid] at hown
      have hne : fresh (before.map (·.2)) base ≠ base := by
        intro hsame
        rw [hid, hown, hsame] at hdeclared
        exact hdeclared rfl
      obtain ⟨number, hpos, hnumber⟩ := exists_number_of_fresh_ne hne
      exact .inl ⟨base, number, rfl, hpos, hown.trans hnumber⟩
  | none =>
      refine .inr ⟨rfl, ?_⟩
      unfold ownName at hown
      rwa [hid] at hown

/-- An element keeps what it declares if and only if no sibling before it declares that too,
and none has got it otherwise. -/
theorem own_eq_iff (h : namedChildren e = before ++ x :: behind) {declared : String}
    (hid : x.1.2.id = some declared) :
    x.2 = declared ↔ (∀ y ∈ before, y.1.2.id ≠ some declared) ∧
      ∀ y ∈ before, ¬ Anticipates declared y := by
  have hkept : x.2 = declared ↔ declared ∉ before.map (·.2) := by
    rw [own_eq_ownName h, ownName_of_id hid]
    exact fresh_eq_self_iff
  rw [hkept]
  constructor
  · intro hfree
    refine ⟨fun y hy hsame => hfree ?_, fun y hy hanticipates => hfree ?_⟩
    · -- whoever declares it first has got it
      obtain ⟨front, back, rfl⟩ := List.append_of_mem hy
      rw [List.append_assoc, List.cons_append] at h
      have hfront : declared ∉ front.map (·.2) := fun hmem => hfree (by simp [hmem])
      have hown := own_eq_ownName h
      rw [ownName_of_id hsame, fresh_eq_self_iff.mpr hfront] at hown
      exact List.mem_map.mpr ⟨y, hy, hown⟩
    · exact List.mem_map.mpr ⟨y, hy, hanticipates.1⟩
  · rintro ⟨hothers, hnone⟩ hmem
    obtain ⟨y, hy, rfl⟩ := List.mem_map.mp hmem
    refine hnone y hy ?_
    have hdeclared := hothers y hy
    obtain ⟨front, back, rfl⟩ := List.append_of_mem hy
    rw [List.append_assoc, List.cons_append] at h
    exact anticipates_of_own h hdeclared

/-! ## Trees -/

/-- The names in the part of a tree that lies below an element are among those of the tree. -/
theorem exists_assign_subset {path : ElementPath} {described : ElementPath × Element}
    (h : described ∈ descendantsFrom path e) (own qualified : String) :
    ∃ own' qualified', assign described.1 own' qualified' described.2 ⊆
      assign path own qualified e := by
  induction e using Element.nested_induction generalizing path own qualified with
  | step e ih =>
      rw [descendantsFrom_eq] at h
      rcases List.mem_cons.mp h with rfl | h
      · exact ⟨own, qualified, List.Subset.refl _⟩
      · obtain ⟨child, hchild, hbelow⟩ := List.mem_flatMap.mp h
        obtain ⟨c, hc, hstep⟩ := List.mem_flatMap.mp hchild
        have hnamed : child ∈ (namedChildren e).map (·.1) := by
          rw [map_namedChildren]
          exact hchild
        obtain ⟨x, hx, rfl⟩ := List.mem_map.mp hnamed
        obtain ⟨own', qualified', hsub⟩ := ih c hc x.1.2 (step_of_mem_stepsOf hstep).2 hbelow
          x.2 (nested qualified x.2)
        refine ⟨own', qualified', fun name hname => ?_⟩
        rw [assign_eq]
        exact List.mem_cons_of_mem _ (List.mem_flatMap.mpr ⟨x, hx, hsub hname⟩)

/-- An element of a tree has a name, and its children have theirs below it. -/
theorem exists_names_of_mem_descendants {root : Element} {described : ElementPath × Element}
    (h : described ∈ root.descendants) (rootName : String) :
    ∃ own qualified,
      ⟨described.1, own, qualified, described.2.kind⟩ ∈
          (Naming.withRootName root rootName).names ∧
        ∀ x ∈ namedChildren described.2,
          ⟨described.1.child x.1.1.feature x.1.1.index, x.2, nested qualified x.2, x.1.2.kind⟩ ∈
            (Naming.withRootName root rootName).names := by
  obtain ⟨own, qualified, hsub⟩ := exists_assign_subset h rootName rootName
  rw [assign_eq] at hsub
  refine ⟨own, qualified, hsub List.mem_cons_self, fun x hx => hsub ?_⟩
  refine List.mem_cons_of_mem _ (List.mem_flatMap.mpr ⟨x, hx, ?_⟩)
  unfold nestedNames
  rw [assign_eq]
  exact List.mem_cons_self

end Name

namespace Naming

open Name

/-- **A declared name goes to the first that declares it, unless it has been given away.**  In
every tree, whatever name its root gets, the names list all elements nested in an element under
the names that these have among their siblings.  One that declares an identifier has just this
name if and only if no sibling before it declares it and none before it has got it in another
way, as a variant of another identifier or as the name of its place.  Otherwise it has the
identifier with a number behind it. -/
theorem own_eq_declared_iff (root : Element) (rootName : String) :
    ∀ described ∈ root.descendants,
      (namedChildren described.2).map (·.1) = described.2.childElements ∧
      (∃ own qualified,
        ⟨described.1, own, qualified, described.2.kind⟩ ∈
            (Naming.withRootName root rootName).names ∧
          ∀ x ∈ namedChildren described.2,
            ⟨described.1.child x.1.1.feature x.1.1.index, x.2, nested qualified x.2,
              x.1.2.kind⟩ ∈ (Naming.withRootName root rootName).names) ∧
      ∀ before x behind, namedChildren described.2 = before ++ x :: behind →
        ∀ declared, x.1.2.id = some declared →
          (x.2 = declared ↔ (∀ y ∈ before, y.1.2.id ≠ some declared) ∧
            ∀ y ∈ before, ¬ Anticipates declared y) ∧
          (x.2 ≠ declared → ∃ number, 1 ≤ number ∧ x.2 = declared ++ toString number) := by
  intro described hmem
  refine ⟨map_namedChildren described.2, exists_names_of_mem_descendants hmem rootName, ?_⟩
  intro before x behind hsplit declared hid
  refine ⟨own_eq_iff hsplit hid, fun hne => ?_⟩
  have hown := own_eq_ownName hsplit
  rw [ownName_of_id hid] at hown
  rw [hown] at hne ⊢
  exact exists_number_of_fresh_ne hne

/-- An entity with an attribute that is declared twice and another one behind. -/
def repeatedText (last : String) : String :=
  "entity:\n  id: E\n  attributes:\n    - id: Id\n    - id: Id\n    - id: " ++ last ++ "\n"

/-- The names in a text, read off the tree of the text. -/
theorem exists_namedChildren (text : String) (ids : List (Option String × String))
    (h : (Document.ofText text).root.map (fun root =>
      (namedChildren root).map fun x => (x.1.2.id, x.2)) = some ids) :
    ∃ root, (Document.ofText text).root = some root ∧
      (ElementPath.root, root) ∈ root.descendants ∧
      (namedChildren root).map (fun x => (x.1.2.id, x.2)) = ids := by
  obtain ⟨root, hroot, hids⟩ := Option.map_eq_some_iff.mp h
  exact ⟨root, hroot, Element.mem_descendantsFrom_iff.mpr (.inl rfl), hids⟩

theorem own_eq_declared_iff_repeated :
    ∃ root, (Document.ofText (repeatedText "Id2")).root = some root ∧
      (ElementPath.root, root) ∈ root.descendants ∧
      ∃ before x, namedChildren root = before ++ x :: [] ∧
        before.map (fun y => (y.1.2.id, y.2)) = [(some "Id", "Id"), (some "Id", "Id1")] ∧
        x.1.2.id = some "Id2" ∧ x.2 = "Id2" := by
  obtain ⟨root, hroot, hmem, hids⟩ := exists_namedChildren (repeatedText "Id2")
    ([(some "Id", "Id"), (some "Id", "Id1")] ++ [(some "Id2", "Id2")]) (by decide +kernel)
  obtain ⟨before, last, hsplit, hbefore, hlast⟩ := List.map_eq_append_iff.mp hids
  obtain ⟨x, rfl, hx⟩ := List.map_eq_singleton_iff.mp hlast
  have hid : x.1.2.id = some "Id2" := congrArg Prod.fst hx
  have hkept := (((own_eq_declared_iff root "E") _ hmem).2.2 before x [] hsplit "Id2" hid).1
  refine ⟨root, hroot, hmem, before, x, hsplit, hbefore, hid, hkept.mpr ⟨fun y hy hsame => ?_,
    fun y hy hanticipates => ?_⟩⟩
  · have hname : (y.1.2.id, y.2) ∈ [(some "Id", "Id"), (some "Id", "Id1")] :=
      hbefore ▸ List.mem_map_of_mem hy
    rw [hsame] at hname
    simp at hname
  · have hname : (y.1.2.id, y.2) ∈ [(some "Id", "Id"), (some "Id", "Id1")] :=
      hbefore ▸ List.mem_map_of_mem hy
    rw [hanticipates.1] at hname
    simp at hname

/-- The repetition of `Id` takes the name `Id1` from the attribute that declares it, which no
attribute before it does. -/
theorem repetition_takes_declared_name :
    ∃ root, (Document.ofText (repeatedText "Id1")).root = some root ∧
      (ElementPath.root, root) ∈ root.descendants ∧
      ∃ before x, namedChildren root = before ++ x :: [] ∧ x.1.2.id = some "Id1" ∧
        (∀ y ∈ before, y.1.2.id ≠ some "Id1") ∧ x.2 = "Id11" := by
  obtain ⟨root, hroot, hmem, hids⟩ := exists_namedChildren (repeatedText "Id1")
    ([(some "Id", "Id"), (some "Id", "Id1")] ++ [(some "Id1", "Id11")]) (by decide +kernel)
  obtain ⟨before, last, hsplit, hbefore, hlast⟩ := List.map_eq_append_iff.mp hids
  obtain ⟨x, rfl, hx⟩ := List.map_eq_singleton_iff.mp hlast
  obtain ⟨hid, hown⟩ := Prod.mk.inj hx
  refine ⟨root, hroot, hmem, before, x, hsplit, hid, fun y hy hsame => ?_, hown⟩
  have hname : (y.1.2.id, y.2) ∈ [(some "Id", "Id"), (some "Id", "Id1")] :=
    hbefore ▸ List.mem_map_of_mem hy
  rw [hsame] at hname
  simp at hname

end Naming
end ModelWorkspace
