import Mathlib
import ModelWorkspace.Proofs.Package.Declared

/-!
# What a package sees

A package sees the packages that its dependencies lead to, and in the transitive scope those
that these lead to as well.  They are found by going through a queue; who is in it twice, and
whose identifier has been seen, is passed over.

The loop has no bound of its own: `Exploration` says what it does until the queue is empty, and
`exploration_explore` that it comes to an end and that the rounds which `visibleFrom` allows
for are enough.  What it leaves is described by one equation for each scope
(`cons_visibleFrom`): the first package of each identifier among all that have been looked at,
in the order of the packages that lead to them.  This is the breadth-first order, so nothing
stands in front of what fewer dependencies lead to (`visibleFrom_closure`).
-/

namespace ModelWorkspace
namespace PackageGraph

variable {g : PackageGraph} {scope : DependencyScope} {p q r : Package}

/-- The packages that dependencies lead to, in the order of declaration. -/
def targetsOf (g : PackageGraph) (ds : List Dependency) : List Package :=
  ds.filterMap fun d => g.byName? d.name

/-- The packages that the dependencies of a package lead to. -/
def targets (g : PackageGraph) (p : Package) : List Package :=
  g.targetsOf p.dependencies

/-- The packages of a list without those whose identifiers another one has further ahead. -/
def firstOfEachId (ps : List Package) : List Package :=
  ps.eraseDupsBy fun p q => p.id == q.id

/-- So many dependencies lead from `p` to a package, by way of `p` itself and packages in
`through`. -/
inductive Chain (g : PackageGraph) (p : Package) (through : List Package) :
    (count : Nat) → Package → Prop
  | start : Chain g p through 0 p
  | step {count : Nat} {q r : Package} (chain : Chain g p through count q)
      (inside : q ∈ p :: through) (h : r ∈ g.targets q) : Chain g p through (count + 1) r

theorem targetsOf_cons_none {d : Dependency} (h : g.byName? d.name = none)
    (ds : List Dependency) : g.targetsOf (d :: ds) = g.targetsOf ds := by
  simp [targetsOf, h]

theorem targetsOf_cons_some {d : Dependency} (h : g.byName? d.name = some q)
    (ds : List Dependency) : g.targetsOf (d :: ds) = q :: g.targetsOf ds := by
  simp [targetsOf, h]

theorem Chain.mono {through more : List Package} (hsub : through ⊆ more) {count : Nat}
    (h : g.Chain p through count q) : g.Chain p more count q := by
  induction h with
  | start => exact .start
  | step _ inside h ih => exact .step ih (List.cons_subset_cons p hsub inside) h

/-! ## The first package of each identifier -/

@[simp]
theorem firstOfEachId_nil : firstOfEachId [] = [] := rfl

theorem firstOfEachId_cons (p : Package) (ps : List Package) :
    firstOfEachId (p :: ps) = p :: firstOfEachId (ps.filter fun q => q.id ≠ p.id) := by
  unfold firstOfEachId
  rw [List.eraseDupsBy_cons]
  refine congrArg (fun qs => p :: List.eraseDupsBy _ qs) (List.filter_congr fun q _ => ?_)
  simp

/-- Induction along the packages that are kept. -/
@[elab_as_elim]
theorem firstOfEachId_induction {motive : List Package → Prop} (nil : motive [])
    (cons : ∀ p ps, motive (ps.filter fun q => q.id ≠ p.id) → motive (p :: ps)) :
    ∀ ps, motive ps
  | [] => nil
  | p :: ps => cons p ps (firstOfEachId_induction nil cons _)
termination_by ps => ps.length
decreasing_by exact Nat.lt_succ_of_le (List.length_filter_le _ _)

theorem firstOfEachId_append (ps qs : List Package) :
    firstOfEachId (ps ++ qs) =
      firstOfEachId ps ++ firstOfEachId (qs.filter fun q => q.id ∉ ps.map (·.id)) := by
  induction ps using firstOfEachId_induction generalizing qs with
  | nil => simp
  | cons p ps ih =>
      rw [List.cons_append, firstOfEachId_cons, firstOfEachId_cons, List.filter_append, ih,
        List.filter_filter, List.cons_append]
      congr 3
      refine List.filter_congr fun q _ => ?_
      by_cases hq : q.id = p.id
      · simp [hq]
      · have hsame : q.id ∈ (ps.filter fun r => r.id ≠ p.id).map (·.id) ↔
            q.id ∈ ps.map (·.id) := by
          simp only [List.mem_map, List.mem_filter, decide_eq_true_eq]
          exact ⟨fun ⟨r, ⟨hr, _⟩, hid⟩ => ⟨r, hr, hid⟩,
            fun ⟨r, hr, hid⟩ => ⟨r, ⟨hr, hid ▸ hq⟩, hid⟩⟩
        simp only [hsame, List.map_cons, List.mem_cons, hq, ne_eq, not_false_eq_true, decide_true,
          Bool.and_true, false_or]

theorem mem_of_mem_firstOfEachId {ps : List Package} (h : q ∈ firstOfEachId ps) : q ∈ ps := by
  induction ps using firstOfEachId_induction with
  | nil => exact h
  | cons p ps ih =>
      rw [firstOfEachId_cons] at h
      rcases List.mem_cons.mp h with rfl | h
      · exact List.mem_cons_self
      · exact List.mem_cons_of_mem p (List.mem_of_mem_filter (ih h))

theorem exists_mem_firstOfEachId {ps : List Package} (h : q ∈ ps) :
    ∃ r ∈ firstOfEachId ps, r.id = q.id := by
  induction ps using firstOfEachId_induction with
  | nil => exact absurd h List.not_mem_nil
  | cons p ps ih =>
      rw [firstOfEachId_cons]
      by_cases hq : q.id = p.id
      · exact ⟨p, List.mem_cons_self, hq.symm⟩
      · have hmem : q ∈ ps.filter fun q => q.id ≠ p.id := by
          rcases List.mem_cons.mp h with rfl | h
          · exact absurd rfl hq
          · exact List.mem_filter.mpr ⟨h, decide_eq_true hq⟩
        obtain ⟨r, hr, hid⟩ := ih hmem
        exact ⟨r, List.mem_cons_of_mem p hr, hid⟩

theorem nodup_firstOfEachId (ps : List Package) : ((firstOfEachId ps).map (·.id)).Nodup := by
  induction ps using firstOfEachId_induction with
  | nil => exact List.nodup_nil
  | cons p ps ih =>
      rw [firstOfEachId_cons, List.map_cons]
      refine List.nodup_cons.mpr ⟨fun hmem => ?_, ih⟩
      obtain ⟨q, hq, hid⟩ := List.mem_map.mp hmem
      have hne := (List.mem_filter.mp (mem_of_mem_firstOfEachId hq)).2
      rw [hid] at hne
      simp at hne

/-- One package more is kept if its identifier is new. -/
theorem firstOfEachId_concat (ps : List Package) (q : Package) :
    firstOfEachId (ps ++ [q]) =
      if q.id ∈ ps.map (·.id) then firstOfEachId ps else firstOfEachId ps ++ [q] := by
  rw [firstOfEachId_append]
  by_cases hq : q.id ∈ ps.map (·.id)
  · simp only [List.filter_cons, hq, not_true_eq_false, decide_false, Bool.false_eq_true,
      if_false, if_true, List.filter_nil, firstOfEachId_nil, List.append_nil]
  · simp only [List.filter_cons, hq, not_false_eq_true, decide_true, if_true, if_false,
      List.filter_nil, firstOfEachId_cons, firstOfEachId_nil]

/-! ## The loop -/

/-- What the loop makes of the packages in a queue, while the dependencies of the last one it
has taken out are still to be looked at: it ends with a list of packages, those found before
in front.  Whatever is not yet seen is found, and put into the queue in the transitive scope. -/
inductive Exploration (g : PackageGraph) (scope : DependencyScope) :
    (seen : Finset String) → List Dependency → (queue found result : List Package) → Prop
  | done {seen : Finset String} {found : List Package} : Exploration g scope seen [] [] found found
  | next {seen : Finset String} {p : Package} {queue found result : List Package}
      (rest : Exploration g scope seen p.dependencies queue found result) :
      Exploration g scope seen [] (p :: queue) found result
  | unknown {seen : Finset String} {d : Dependency} {ds : List Dependency}
      {queue found result : List Package} (h : g.byName? d.name = none)
      (rest : Exploration g scope seen ds queue found result) :
      Exploration g scope seen (d :: ds) queue found result
  | known {seen : Finset String} {d : Dependency} {ds : List Dependency} {q : Package}
      {queue found result : List Package} (h : g.byName? d.name = some q) (hseen : q.id ∈ seen)
      (rest : Exploration g scope seen ds queue found result) :
      Exploration g scope seen (d :: ds) queue found result
  | new {seen : Finset String} {d : Dependency} {ds : List Dependency} {q : Package}
      {queue found result : List Package} (h : g.byName? d.name = some q) (hnew : q.id ∉ seen)
      (rest : Exploration g scope (seen ∪ {q.id}) ds
        (if scope = .transitive then queue ++ [q] else queue) (found ++ [q]) result) :
      Exploration g scope seen (d :: ds) queue found result

namespace Exploration

variable {seen : Finset String} {ds : List Dependency} {queue found result other : List Package}

/-- The loop ends in one way only. -/
theorem unique (h : Exploration g scope seen ds queue found result)
    (hother : Exploration g scope seen ds queue found other) : other = result := by
  induction h with
  | done => cases hother with | done => rfl
  | next _ ih => cases hother with | next rest => exact ih rest
  | unknown hname _ ih =>
      cases hother with
      | unknown _ rest => exact ih rest
      | known hname' _ _ => rw [hname] at hname'; cases hname'
      | new hname' _ _ => rw [hname] at hname'; cases hname'
  | known hname hseen _ ih =>
      cases hother with
      | unknown hname' _ => rw [hname] at hname'; cases hname'
      | known _ _ rest => exact ih rest
      | new hname' hnew _ =>
          rw [hname] at hname'
          cases hname'
          exact absurd hseen hnew
  | new hname hnew _ ih =>
      cases hother with
      | unknown hname' _ => rw [hname] at hname'; cases hname'
      | known hname' hseen _ =>
          rw [hname] at hname'
          cases hname'
          exact absurd hseen hnew
      | new hname' _ rest =>
          rw [hname] at hname'
          cases hname'
          exact ih rest

/-- The dependencies of one package, gone through at once. -/
theorem of_newTargets {known : List String} (hseen : ∀ id, id ∈ seen ↔ id ∈ known)
    (h : ∀ seen' : Finset String,
      (∀ id, id ∈ seen' ↔ id ∈ (g.newTargets known ds).map (·.id) ∨ id ∈ known) →
        Exploration g scope seen' []
          (if scope = .transitive then queue ++ g.newTargets known ds else queue)
          (found ++ g.newTargets known ds) result) :
    Exploration g scope seen ds queue found result := by
  induction ds generalizing seen known queue found with
  | nil =>
      have hrest := h seen (by simpa [newTargets] using hseen)
      simpa [newTargets] using hrest
  | cons d ds ih =>
      cases hname : g.byName? d.name with
      | none =>
          have hstep : g.newTargets known (d :: ds) = g.newTargets known ds := by
            rw [newTargets, hname]
          rw [hstep] at h
          exact .unknown hname (ih hseen h)
      | some q =>
          by_cases hq : q.id ∈ known
          · have hstep : g.newTargets known (d :: ds) = g.newTargets known ds := by
              rw [newTargets, hname]
              simp [hq]
            rw [hstep] at h
            exact .known hname ((hseen q.id).mpr hq) (ih hseen h)
          · have hstep : g.newTargets known (d :: ds) =
                q :: g.newTargets (q.id :: known) ds := by
              rw [newTargets, hname]
              simp [hq]
            rw [hstep] at h
            have hnew : q.id ∉ seen := fun hmem => hq ((hseen q.id).mp hmem)
            have hnext : ∀ id, id ∈ seen ∪ {q.id} ↔ id ∈ q.id :: known := by
              intro id
              rw [Finset.mem_union, Finset.mem_singleton, hseen, List.mem_cons]
              tauto
            refine .new hname hnew (ih hnext fun seen' hseen' => ?_)
            have hrest := h seen' fun id => by
              rw [hseen', List.map_cons, List.mem_cons, List.mem_cons]
              tauto
            cases scope with
            | direct => simpa using hrest
            | transitive => simpa using hrest

end Exploration

/-- How many packages of a graph have identifiers that are not known. -/
def unknownCount (g : PackageGraph) (known : List String) : Nat :=
  g.toList.countP fun q => q.id ∉ known

theorem ids_newTargets (g : PackageGraph) (known : List String) (ds : List Dependency) :
    ((g.newTargets known ds).map (·.id)).Nodup ∧
      ∀ q ∈ g.newTargets known ds, q.id ∉ known := by
  induction ds generalizing known with
  | nil => exact ⟨List.nodup_nil, fun q hq => absurd hq List.not_mem_nil⟩
  | cons d ds ih =>
      rw [newTargets]
      cases g.byName? d.name with
      | none => exact ih known
      | some q =>
          by_cases hq : q.id ∈ known
          · simpa [hq] using ih known
          · obtain ⟨hnodup, hnew⟩ := ih (q.id :: known)
            simp only [List.contains_eq_mem, hq, decide_false, Bool.false_eq_true, if_false]
            refine ⟨List.nodup_cons.mpr ⟨fun hmem => ?_, hnodup⟩, fun r hr => ?_⟩
            · obtain ⟨r, hr, hid⟩ := List.mem_map.mp hmem
              exact hnew r hr (hid ▸ List.mem_cons_self)
            · rcases List.mem_cons.mp hr with rfl | hr
              · exact hq
              · exact fun hmem => hnew r hr (List.mem_cons_of_mem q.id hmem)

/-- What is found is not unknown any more. -/
theorem length_newTargets_add_unknownCount_le (g : PackageGraph) (known : List String)
    (ds : List Dependency) :
    (g.newTargets known ds).length +
        g.unknownCount (known ++ (g.newTargets known ds).map (·.id)) ≤
      g.unknownCount known := by
  obtain ⟨hnodup, hnew⟩ := g.ids_newTargets known ds
  let isFound : Package → Bool := fun q => q.id ∈ (g.newTargets known ds).map (·.id)
  have hsplit := g.toList.countP_eq_countP_filter_add (fun q => decide (q.id ∉ known)) isFound
  have hfound : (g.newTargets known ds).length ≤
      (g.toList.filter isFound).countP fun q => q.id ∉ known := by
    rw [List.countP_eq_length_filter]
    refine ((List.Nodup.of_map _ hnodup).subperm fun q hq => ?_).length_le
    refine List.mem_filter.mpr ⟨List.mem_filter.mpr ⟨?_, ?_⟩, decide_eq_true (hnew q hq)⟩
    · exact mem_toList_of_mem_newTargets hq
    · exact decide_eq_true (List.mem_map_of_mem hq)
  have hrest : g.unknownCount (known ++ (g.newTargets known ds).map (·.id)) ≤
      (g.toList.filter fun q => !isFound q).countP fun q => q.id ∉ known := by
    unfold unknownCount
    rw [List.countP_filter]
    refine List.countP_mono_left fun q _ hq => ?_
    simpa [isFound, not_or] using hq
  have hcount : g.unknownCount known = g.toList.countP fun q => decide (q.id ∉ known) := rfl
  omega

/-- The rounds are enough if there is one for each package in the queue and one for each that
can still come into it. -/
theorem exploration_explore {rounds : Nat} {queue found : List Package}
    (hrounds : queue.length + g.unknownCount (p.id :: found.map (·.id)) ≤ rounds)
    {seen : Finset String} (hseen : ∀ id, id ∈ seen ↔ id ∈ p.id :: found.map (·.id)) :
    g.Exploration scope seen [] queue found (g.explore scope p rounds queue found) := by
  induction rounds generalizing queue found seen with
  | zero =>
      obtain rfl : queue = [] := List.eq_nil_of_length_eq_zero (by omega)
      exact .done
  | succ rounds ih =>
      cases queue with
      | nil => exact .done
      | cons q queue =>
          refine .next (.of_newTargets hseen fun seen' hseen' => ih ?_ fun id => ?_)
          · have hle := g.length_newTargets_add_unknownCount_le
              (p.id :: found.map (·.id)) q.dependencies
            rw [List.length_cons] at hrounds
            rw [List.map_append, ← List.cons_append]
            cases scope with
            | direct => simp only [reduceCtorEq, if_false]; omega
            | transitive => simp only [if_true, List.length_append]; omega
          · rw [hseen', List.map_append, ← List.cons_append, List.mem_append]
            exact or_comm

theorem exploration_visibleFrom (g : PackageGraph) (scope : DependencyScope) (p : Package) :
    g.Exploration scope {p.id} [] [p] [] (g.visibleFrom p scope) := by
  have hsize : g.unknownCount [p.id] ≤ g.packages.size := by
    exact List.countP_le_length.trans (List.length_map _).le
  refine exploration_explore ?_ fun id => ?_
  · simp only [List.length_singleton, List.map_nil]
    omega
  · rw [Finset.mem_singleton, List.map_nil, List.mem_singleton]

/-! ## What is found -/

/-- What has been done so far: `out` are the packages that have been taken out of the queue, and
`looked` those that have been looked at, which the dependencies of these lead to. -/
structure Underway (g : PackageGraph) (scope : DependencyScope) (p : Package)
    (seen : Finset String) (ds : List Dependency) (queue found out looked : List Package) :
    Prop where
  seen_iff : ∀ id, id ∈ seen ↔ id ∈ (p :: looked).map (·.id)
  found_eq : p :: found = firstOfEachId (p :: looked)
  queue_eq : out ++ queue = if scope = .transitive then p :: found else [p]
  looked_eq : looked ++ g.targetsOf ds = out.flatMap g.targets
  chain : ∀ q ∈ found, ∃ count, g.Chain p found (count + 1) q

namespace Underway

variable {seen : Finset String} {d : Dependency} {ds : List Dependency}
  {queue found out looked : List Package}

theorem mem_of_mem_out (h : g.Underway scope p seen ds queue found out looked)
    (hq : q ∈ out) : q ∈ p :: found := by
  have hmem : q ∈ if scope = .transitive then p :: found else [p] :=
    h.queue_eq ▸ List.mem_append_left queue hq
  split at hmem
  · exact hmem
  · exact List.mem_singleton.mp hmem ▸ List.mem_cons_self

theorem next (h : g.Underway scope p seen [] (q :: queue) found out looked) :
    g.Underway scope p seen q.dependencies queue found (out ++ [q]) looked where
  seen_iff := h.seen_iff
  found_eq := h.found_eq
  queue_eq := by rw [← h.queue_eq, List.append_assoc, List.singleton_append]
  looked_eq := by
    have hlooked := h.looked_eq
    rw [show g.targetsOf [] = [] from rfl, List.append_nil] at hlooked
    rw [List.flatMap_append, ← hlooked, List.flatMap_singleton]
    rfl
  chain := h.chain

theorem unknown (h : g.Underway scope p seen (d :: ds) queue found out looked)
    (hname : g.byName? d.name = none) : g.Underway scope p seen ds queue found out looked where
  seen_iff := h.seen_iff
  found_eq := h.found_eq
  queue_eq := h.queue_eq
  looked_eq := by rw [← h.looked_eq, targetsOf_cons_none hname]
  chain := h.chain

theorem known (h : g.Underway scope p seen (d :: ds) queue found out looked)
    (hname : g.byName? d.name = some q) (hseen : q.id ∈ seen) :
    g.Underway scope p seen ds queue found out (looked ++ [q]) where
  seen_iff := by
    intro id
    rw [h.seen_iff, ← List.cons_append, List.map_append, List.mem_append, List.map_singleton,
      List.mem_singleton]
    constructor
    · exact Or.inl
    · rintro (hid | rfl)
      · exact hid
      · exact (h.seen_iff q.id).mp hseen
  found_eq := by
    rw [← List.cons_append, firstOfEachId_concat, if_pos ((h.seen_iff q.id).mp hseen)]
    exact h.found_eq
  queue_eq := h.queue_eq
  looked_eq := by
    rw [← h.looked_eq, targetsOf_cons_some hname, List.append_assoc, List.singleton_append]
  chain := h.chain

theorem new (h : g.Underway scope p seen (d :: ds) queue found out looked)
    (hname : g.byName? d.name = some q) (hnew : q.id ∉ seen) :
    g.Underway scope p (seen ∪ {q.id}) ds
      (if scope = .transitive then queue ++ [q] else queue) (found ++ [q]) out
      (looked ++ [q]) where
  seen_iff := by
    intro id
    rw [Finset.mem_union, Finset.mem_singleton, h.seen_iff, ← List.cons_append, List.map_append,
      List.mem_append, List.map_singleton, List.mem_singleton]
  found_eq := by
    rw [← List.cons_append, ← List.cons_append, firstOfEachId_concat,
      if_neg (fun hmem => hnew ((h.seen_iff q.id).mpr hmem)), h.found_eq]
  queue_eq := by
    have hqueue := h.queue_eq
    cases scope with
    | direct => simpa using hqueue
    | transitive =>
        simp only [if_true] at hqueue ⊢
        rw [← List.append_assoc, hqueue, List.cons_append]
  looked_eq := by
    rw [← h.looked_eq, targetsOf_cons_some hname, List.append_assoc, List.singleton_append]
  chain := by
    have hmore : found ⊆ found ++ [q] := List.subset_append_left found [q]
    intro r hr
    rcases List.mem_append.mp hr with hr | hr
    · obtain ⟨count, hchain⟩ := h.chain r hr
      exact ⟨count, hchain.mono hmore⟩
    · -- a package that has been taken out of the queue leads to it
      obtain rfl := List.mem_singleton.mp hr
      have hlooked : r ∈ out.flatMap g.targets := by
        rw [← h.looked_eq, targetsOf_cons_some hname]
        exact List.mem_append_right looked List.mem_cons_self
      obtain ⟨s, hs, hsr⟩ := List.mem_flatMap.mp hlooked
      rcases List.mem_cons.mp (h.mem_of_mem_out hs) with rfl | hfound
      · exact ⟨0, .step .start List.mem_cons_self hsr⟩
      · obtain ⟨count, hchain⟩ := h.chain s hfound
        exact ⟨count + 1, .step (hchain.mono hmore)
          (List.mem_cons_of_mem p (hmore hfound)) hsr⟩

end Underway

/-- What holds when the queue is empty. -/
theorem Exploration.underway {seen : Finset String} {ds : List Dependency}
    {queue found result : List Package} (h : g.Exploration scope seen ds queue found result)
    {out looked : List Package} (hbefore : g.Underway scope p seen ds queue found out looked) :
    ∃ seen out looked, g.Underway scope p seen [] [] result out looked := by
  induction h generalizing out looked with
  | done => exact ⟨_, _, _, hbefore⟩
  | next _ ih => exact ih hbefore.next
  | unknown hname _ ih => exact ih (hbefore.unknown hname)
  | known hname hseen _ ih => exact ih (hbefore.known hname hseen)
  | new hname hnew _ ih => exact ih (hbefore.new hname hnew)

/-- What a package sees, described by the order of what its packages lead to. -/
theorem cons_visibleFrom (g : PackageGraph) (scope : DependencyScope) (p : Package) :
    p :: g.visibleFrom p scope = firstOfEachId (p ::
        (if scope = .transitive then p :: g.visibleFrom p scope else [p]).flatMap g.targets) ∧
      ∀ q ∈ g.visibleFrom p scope, ∃ count, g.Chain p (g.visibleFrom p scope) (count + 1) q := by
  have hstart : g.Underway scope p {p.id} [] [p] [] [] [] :=
    ⟨by simp, by simp [firstOfEachId_cons], by simp, rfl, by simp⟩
  obtain ⟨seen, out, looked, hend⟩ := (g.exploration_visibleFrom scope p).underway hstart
  have hqueue := hend.queue_eq
  have hlooked := hend.looked_eq
  rw [List.append_nil] at hqueue
  rw [show g.targetsOf [] = [] from rfl, List.append_nil] at hlooked
  refine ⟨?_, hend.chain⟩
  rw [← hqueue, ← hlooked]
  exact hend.found_eq

theorem visibleFrom_direct_eq (g : PackageGraph) (p : Package) :
    p :: g.visibleFrom p .direct = firstOfEachId (p :: g.targets p) := by
  obtain ⟨heq, -⟩ := g.cons_visibleFrom .direct p
  rwa [if_neg (by decide), List.flatMap_singleton] at heq

theorem visibleFrom_transitive_eq (g : PackageGraph) (p : Package) :
    p :: g.visibleFrom p .transitive =
      firstOfEachId (p :: (p :: g.visibleFrom p .transitive).flatMap g.targets) := by
  obtain ⟨heq, -⟩ := g.cons_visibleFrom .transitive p
  rwa [if_pos rfl] at heq

theorem nodup_ids_visibleFrom (g : PackageGraph) (scope : DependencyScope) (p : Package) :
    ((p :: g.visibleFrom p scope).map (·.id)).Nodup := by
  rw [(g.cons_visibleFrom scope p).1]
  exact nodup_firstOfEachId _

/-- Whatever a visible package leads to is visible, under its identifier. -/
theorem exists_visible_of_target (hq : q ∈ p :: g.visibleFrom p .transitive)
    (hr : r ∈ g.targets q) : ∃ s ∈ p :: g.visibleFrom p .transitive, s.id = r.id := by
  rw [visibleFrom_transitive_eq]
  exact exists_mem_firstOfEachId
    (List.mem_cons_of_mem p (List.mem_flatMap.mpr ⟨q, hq, hr⟩))

/-- What stands in front of a package is found no later: packages up to any one that leads to
the former lead to it. -/
theorem exists_target_of_split {front back before behind : List Package} {s : Package}
    (hsplit : p :: g.visibleFrom p .transitive = front ++ r :: back) (hq : q ∈ front)
    (hs : p :: g.visibleFrom p .transitive = before ++ s :: behind) (hr : r ∈ g.targets s) :
    q = p ∨ ∃ t ∈ before ++ [s], q ∈ g.targets t := by
  have hnodup : (p :: g.visibleFrom p .transitive).Nodup :=
    List.Nodup.of_map _ (g.nodup_ids_visibleFrom .transitive p)
  have heq := g.visibleFrom_transitive_eq p
  have hlooked : p :: (p :: g.visibleFrom p .transitive).flatMap g.targets =
      (p :: (before ++ [s]).flatMap g.targets) ++ behind.flatMap g.targets := by
    rw [hs]
    simp
  rw [hlooked, firstOfEachId_append] at heq
  have hearly : r ∈ p :: (before ++ [s]).flatMap g.targets :=
    List.mem_cons_of_mem p (List.mem_flatMap.mpr ⟨s, by simp, hr⟩)
  have hfound : r ∈ firstOfEachId (p :: (before ++ [s]).flatMap g.targets) := by
    have hmem : r ∈ p :: g.visibleFrom p .transitive := by
      rw [hsplit]
      exact List.mem_append_right front List.mem_cons_self
    rw [heq] at hmem
    refine (List.mem_append.mp hmem).resolve_right fun hlater => ?_
    have hnew := (List.mem_filter.mp (mem_of_mem_firstOfEachId hlater)).2
    rw [decide_eq_true_iff] at hnew
    exact hnew (List.mem_map_of_mem hearly)
  obtain ⟨left, right, hleft⟩ := List.append_of_mem hfound
  rw [hleft, List.append_assoc, List.cons_append] at heq
  -- there is only one place for `r`
  have hfront : front = left := by
    rw [hsplit] at hnodup
    have hnotin := (List.nodup_cons.mp (List.nodup_middle.mp hnodup)).1
    rw [List.mem_append, not_or] at hnotin
    exact ((List.append_cons_inj_of_notMem hnotin.1 hnotin.2).mp (hsplit.symm.trans heq)).1
  have hmem : q ∈ p :: (before ++ [s]).flatMap g.targets := by
    refine mem_of_mem_firstOfEachId ?_
    rw [hleft, ← hfront]
    exact List.mem_append_left _ hq
  exact (List.mem_cons.mp hmem).imp_right List.mem_flatMap.mp

/-- What stands in front of a package in the transitive scope needs no longer chain. -/
theorem exists_chain_of_split {front back : List Package}
    (hsplit : p :: g.visibleFrom p .transitive = front ++ r :: back) {count : Nat}
    (hchain : g.Chain p (g.visibleFrom p .transitive) count r) (hq : q ∈ front) :
    ∃ shorter ≤ count, g.Chain p (g.visibleFrom p .transitive) shorter q := by
  induction hchain generalizing front back q with
  | start =>
      -- nothing stands in front of the package itself
      cases front with
      | nil => exact absurd hq List.not_mem_nil
      | cons first front =>
          have hnodup := List.Nodup.of_map _ (g.nodup_ids_visibleFrom .transitive p)
          obtain ⟨rfl, hrest⟩ := List.cons.inj hsplit
          rw [hrest] at hnodup
          exact absurd (List.mem_append_right front List.mem_cons_self)
            (List.nodup_cons.mp hnodup).1
  | @step count s r hchain inside hr ih =>
      obtain ⟨before, behind, hs⟩ := List.append_of_mem inside
      rcases exists_target_of_split hsplit hq hs hr with rfl | ⟨t, ht, hqt⟩
      · exact ⟨0, by omega, .start⟩
      · rcases List.mem_append.mp ht with ht | ht
        · obtain ⟨shorter, hle, hshorter⟩ := ih hs ht
          have htmem : t ∈ p :: g.visibleFrom p .transitive := by
            rw [hs]
            exact List.mem_append_left _ ht
          exact ⟨shorter + 1, by omega, .step hshorter htmem hqt⟩
        · obtain rfl := List.mem_singleton.mp ht
          exact ⟨count + 1, by omega, .step hchain inside hqt⟩

theorem pairwise_chain_visibleFrom (g : PackageGraph) (p : Package) :
    (g.visibleFrom p .transitive).Pairwise fun q r =>
      ∀ count, g.Chain p (g.visibleFrom p .transitive) count r →
        ∃ shorter ≤ count, g.Chain p (g.visibleFrom p .transitive) shorter q := by
  rw [List.pairwise_iff_getElem]
  intro i j hi hj hij count hchain
  have hsplit : p :: g.visibleFrom p .transitive =
      (p :: (g.visibleFrom p .transitive).take j) ++ (g.visibleFrom p .transitive)[j] ::
        (g.visibleFrom p .transitive).drop (j + 1) := by
    rw [List.cons_append, List.getElem_cons_drop, List.take_append_drop]
  refine exists_chain_of_split hsplit hchain (List.mem_cons_of_mem p ?_)
  exact List.mem_take_iff_getElem.mpr ⟨i, by omega, rfl⟩

/-! ## What is seen directly is seen first -/

theorem isPrefix_explore (g : PackageGraph) (scope : DependencyScope) (start : Package)
    (rounds : Nat) (queue found : List Package) :
    found <+: g.explore scope start rounds queue found := by
  induction rounds generalizing queue found with
  | zero => exact List.prefix_rfl
  | succ rounds ih =>
      cases queue with
      | nil => exact List.prefix_rfl
      | cons p queue => exact (List.prefix_append found _).trans (ih _ _)

/-- The packages that a package names itself come first in every scope. -/
theorem visibleFrom_eq (g : PackageGraph) (p : Package) (scope : DependencyScope) :
    g.visibleFrom p scope = g.explore scope p g.packages.size
      (if scope = .transitive then g.newTargets [p.id] p.dependencies else [])
      (g.newTargets [p.id] p.dependencies) := rfl

theorem visibleFrom_direct (g : PackageGraph) (p : Package) :
    g.visibleFrom p .direct = g.newTargets [p.id] p.dependencies := by
  rw [visibleFrom_eq]
  cases g.packages.size with
  | zero => rfl
  | succ rounds => rfl

theorem visibleFrom_direct_isPrefix (g : PackageGraph) (p : Package) (scope : DependencyScope) :
    g.visibleFrom p .direct <+: g.visibleFrom p scope := by
  rw [visibleFrom_direct, visibleFrom_eq]
  exact isPrefix_explore g scope p _ _ _

/-- **What a package sees is what its dependencies lead to.**  In every graph, whatever circles
and repeated or unknown names it has, the loop that looks for the packages comes to an end.  No
identifier is found twice, nor that of the package itself, and a chain of dependencies leads to
everything that is found.  In the transitive scope all dependencies of what is found are found,
under their identifiers, and the order is breadth first: each package stands where the first
one that leads to it puts it, and nothing in front of it needs a longer chain.  In the direct
scope the dependencies of the package itself are found, in the order of declaration, and they
stand in front in the transitive scope. -/
theorem visibleFrom_closure (g : PackageGraph) (p : Package) :
    (∀ scope result, g.Exploration scope {p.id} [] [p] [] result ↔
        result = g.visibleFrom p scope) ∧
      (∀ scope, ((p :: g.visibleFrom p scope).map (·.id)).Nodup ∧
        ∀ q ∈ g.visibleFrom p scope,
          ∃ count, g.Chain p (g.visibleFrom p scope) (count + 1) q) ∧
      (∀ q ∈ p :: g.visibleFrom p .transitive, ∀ r ∈ g.targets q,
        ∃ s ∈ p :: g.visibleFrom p .transitive, s.id = r.id) ∧
      p :: g.visibleFrom p .transitive =
        firstOfEachId (p :: (p :: g.visibleFrom p .transitive).flatMap g.targets) ∧
      ((g.visibleFrom p .transitive).Pairwise fun q r =>
        ∀ count, g.Chain p (g.visibleFrom p .transitive) count r →
          ∃ shorter ≤ count, g.Chain p (g.visibleFrom p .transitive) shorter q) ∧
      p :: g.visibleFrom p .direct = firstOfEachId (p :: g.targets p) ∧
      g.visibleFrom p .direct <+: g.visibleFrom p .transitive := by
  refine ⟨fun scope result => ?_, fun scope => ?_, fun q hq r hr => exists_visible_of_target hq hr,
    g.visibleFrom_transitive_eq p, g.pairwise_chain_visibleFrom p, g.visibleFrom_direct_eq p,
    g.visibleFrom_direct_isPrefix p .transitive⟩
  · have hends := g.exploration_visibleFrom scope p
    constructor
    · exact hends.unique
    · rintro rfl
      exact hends
  · exact ⟨g.nodup_ids_visibleFrom scope p, (g.cons_visibleFrom scope p).2⟩

end PackageGraph
end ModelWorkspace
