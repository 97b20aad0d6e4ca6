import ModelWorkspace.Package.Problem
import ModelWorkspace.Proofs.Package.Components
import ModelWorkspace.Proofs.Package.Ownership

/-!
# Which packages are reported to lie on a circle

The components that are kept as circles hold just the nodes that one or more edges lead back to
(`Components.mem_cyclic_iff`).  The edges between packages follow the dependencies, but a name
stands for the last package of this name there, while it stands for the first one wherever else a
dependency is looked up; and a circle is reported to the first packages of the names on it
(`cycle_mem_problems_iff`).  Where each dependency names one package only, there is no difference,
and the packages that are reported are those that depend on themselves.
-/

namespace ModelWorkspace

open Relation

namespace Components

variable {n : Nat} {edges : Graph n} {components : List (List (Fin n))} {c d : List (Fin n)}
  {v w : Fin n}

/-- One or more edges lead from the node back to it. -/
def OnCircle (edges : Graph n) (v : Fin n) : Prop :=
  TransGen (fun v w => w ∈ edges.get v) v v

namespace AreComponents

theorem nodup_flatten (h : AreComponents edges components) : components.flatten.Nodup :=
  List.nodup_iff_count_le_one.mpr fun v => (h.count v).le

/-- A node is in one component only. -/
theorem eq_of_mem (h : AreComponents edges components) (hc : c ∈ components) (hd : d ∈ components)
    (hvc : v ∈ c) (hvd : v ∈ d) : c = d := by
  by_contra hne
  have hdisjoint := (List.nodup_flatten.mp h.nodup_flatten).2
  have : Std.Symm (@List.Disjoint (Fin n)) := ⟨fun _ _ hxy => hxy.symm⟩
  exact hdisjoint.forall hc hd hne hvc hvd

/-- A component of more than one node is a circle. -/
theorem onCircle (h : AreComponents edges components) (hc : c ∈ components) (hv : v ∈ c)
    (hw : w ∈ c) (hne : w ≠ v) : OnCircle edges v := by
  obtain ⟨hvw, hwv⟩ := (h.connected v w).mp ⟨c, hc, hv, hw⟩
  exact ((reflTransGen_iff_eq_or_transGen.mp hvw).resolve_left hne).trans_left hwv

/-- A node on a circle has an edge to itself, or is not alone in its component. -/
theorem of_onCircle (h : AreComponents edges components) (hc : c ∈ components) (hv : v ∈ c)
    (hcircle : OnCircle edges v) : v ∈ edges.get v ∨ ∃ w ∈ c, w ≠ v := by
  obtain ⟨w, hedge, hback⟩ := TransGen.head'_iff.mp hcircle
  by_cases heq : w = v
  · exact .inl (heq ▸ hedge)
  · obtain ⟨d, hd, hvd, hwd⟩ := (h.connected v w).mpr ⟨.single hedge, hback⟩
    rw [h.eq_of_mem hd hc hvd hv] at hwd
    exact .inr ⟨w, hwd, heq⟩

end AreComponents

theorem mem_cyclic_iff_of_mem_all : c ∈ cyclic edges ↔
    c ∈ all edges ∧ ∀ v, c = [v] → v ∈ edges.get v := by
  unfold cyclic
  rw [List.mem_filter]
  refine and_congr_right fun hmem => ?_
  split
  · rename_i v
    rw [List.contains_iff_mem]
    exact ⟨fun hedge w hw => (List.cons.inj hw).1 ▸ hedge, fun hedge => hedge v rfl⟩
  · rename_i hnot
    exact iff_of_true rfl fun v hv => absurd hv (hnot v)

/-- The nodes of the cyclic components are those on circles. -/
theorem exists_mem_cyclic_iff : (∃ c ∈ cyclic edges, v ∈ c) ↔ OnCircle edges v := by
  have hall := areComponents_all edges
  constructor
  · rintro ⟨c, hc, hv⟩
    obtain ⟨hmem, hsingle⟩ := mem_cyclic_iff_of_mem_all.mp hc
    by_cases hother : ∃ w ∈ c, w ≠ v
    · obtain ⟨w, hw, hne⟩ := hother
      exact hall.onCircle hmem hv hw hne
    · have hnodup := (List.nodup_flatten.mp hall.nodup_flatten).1 c hmem
      have hsame : ∀ w ∈ c, w = v := fun w hw => by_contra fun hne => hother ⟨w, hw, hne⟩
      refine .single (hsingle v (List.perm_singleton.mp ?_))
      refine (List.perm_ext_iff_of_nodup hnodup (List.nodup_singleton v)).mpr fun w => ?_
      rw [List.mem_singleton]
      exact ⟨hsame w, fun heq => heq ▸ hv⟩
  · intro hcircle
    obtain ⟨c, hmem, hv⟩ := List.mem_flatten.mp
      (List.count_pos_iff.mp (Nat.lt_of_lt_of_eq Nat.one_pos (hall.count v).symm))
    refine ⟨c, mem_cyclic_iff_of_mem_all.mpr ⟨hmem, fun w hw => ?_⟩, hv⟩
    subst hw
    obtain rfl := List.mem_singleton.mp hv
    refine (hall.of_onCircle hmem hv hcircle).resolve_right fun ⟨w, hw, hne⟩ => ?_
    exact hne (List.mem_singleton.mp hw)

end Components

namespace PackageGraph

variable {g : PackageGraph} {p q : Package} {packages : List Package}

/-- The last package of a name. -/
def lastByName? (g : PackageGraph) (name : String) : Option Package :=
  g.toList.findRev? (·.name == name)

/-- A package declares a dependency that leads to another one, when names are looked up in some
way. -/
def DependsOn (find? : String → Option Package) (p q : Package) : Prop :=
  ∃ d ∈ p.dependencies, find? d.name = some q

/-! ## Edges between packages -/

theorem lastPlace?_eq (packages : List Package) (name : String) :
    lastPlace? packages name =
      (List.finRange packages.length).reverse.find? fun v => (packages.get v).name == name := by
  have hzip : packages.zip (List.finRange packages.length) =
      (List.finRange packages.length).map fun v => (packages.get v, v) := by
    have hmap := List.zip_map' (f := packages.get) (g := id) (l := List.finRange packages.length)
    rwa [List.map_get_finRange, List.map_id] at hmap
  unfold lastPlace?
  dsimp only
  rw [List.getLast?_filter, hzip, ← List.map_reverse, List.find?_map, Option.map_map]
  exact Option.map_id'

theorem map_lastPlace? (packages : List Package) (name : String) :
    (lastPlace? packages name).map packages.get = packages.findRev? (·.name == name) := by
  have hreverse : packages.reverse =
      (List.finRange packages.length).reverse.map packages.get := by
    rw [List.map_reverse, List.map_get_finRange]
  rw [lastPlace?_eq, List.findRev?_eq_find?_reverse, hreverse, List.find?_map]
  rfl

theorem mem_get_edges_iff {v w : Fin packages.length} : w ∈ (edges packages).get v ↔
    ∃ d ∈ (packages.get v).dependencies, lastPlace? packages d.name = some w := by
  have hget : (edges packages).get v =
      (packages.get v).dependencies.filterMap fun d => lastPlace? packages d.name := by
    unfold edges
    simp [Vector.get]
  rw [hget, List.mem_filterMap]

theorem mem_toList_of_dependsOn_last (h : DependsOn g.lastByName? p q) : q ∈ g.toList := by
  obtain ⟨d, -, hd⟩ := h
  unfold lastByName? at hd
  rw [List.findRev?_eq_find?_reverse] at hd
  exact List.mem_reverse.mp (List.mem_of_find?_eq_some hd)

theorem mem_get_edges_toList_iff (hnodup : g.toList.Nodup) {v w : Fin g.toList.length} :
    w ∈ (edges g.toList).get v ↔ DependsOn g.lastByName? (g.toList.get v) (g.toList.get w) := by
  rw [mem_get_edges_iff]
  refine exists_congr fun d => and_congr_right fun _ => ?_
  unfold lastByName?
  rw [← map_lastPlace?, Option.map_eq_some_iff]
  constructor
  · exact fun h => ⟨w, h, rfl⟩
  · rintro ⟨u, hu, hget⟩
    rwa [← List.nodup_iff_injective_get.mp hnodup hget]

/-- What a package leads to by way of last names is a node that edges lead to. -/
theorem exists_node_of_dependsOn (hnodup : g.toList.Nodup) {v : Fin g.toList.length}
    (h : TransGen (DependsOn g.lastByName?) (g.toList.get v) q) :
    ∃ w, g.toList.get w = q ∧ TransGen (fun v w => w ∈ (edges g.toList).get v) v w := by
  induction h with
  | single hstep =>
      obtain ⟨w, rfl⟩ := List.get_of_mem (mem_toList_of_dependsOn_last hstep)
      exact ⟨w, rfl, .single ((mem_get_edges_toList_iff hnodup).mpr hstep)⟩
  | tail _ hstep ih =>
      obtain ⟨u, rfl, hu⟩ := ih
      obtain ⟨w, rfl⟩ := List.get_of_mem (mem_toList_of_dependsOn_last hstep)
      exact ⟨w, rfl, hu.tail ((mem_get_edges_toList_iff hnodup).mpr hstep)⟩

/-- The nodes on circles are the packages that lead to themselves by way of last names. -/
theorem onCircle_edges_iff (hnodup : g.toList.Nodup) (v : Fin g.toList.length) :
    Components.OnCircle (edges g.toList) v ↔
      TransGen (DependsOn g.lastByName?) (g.toList.get v) (g.toList.get v) := by
  constructor
  · exact fun h => h.lift g.toList.get fun _ _ => (mem_get_edges_toList_iff hnodup).mp
  · intro h
    obtain ⟨w, hw, hcircle⟩ := exists_node_of_dependsOn hnodup h
    rwa [List.nodup_iff_injective_get.mp hnodup hw] at hcircle

/-! ## Reports -/

theorem mem_cycles_iff {members : List String} : members ∈ g.cycles ↔
    ∃ c ∈ Components.cyclic (edges g.toList),
      members = (c.mergeSort fun v w => v ≤ w).map fun v => (g.toList.get v).name := by
  unfold cycles
  dsimp only
  rw [List.mem_map]
  exact exists_congr fun c => and_congr_right fun _ => eq_comm

/-- No single dependency is reported as a circle. -/
theorem dependencyProblem?_ne_cycle (g : PackageGraph) (d : Dependency) (members : List String) :
    g.dependencyProblem? d ≠ some (.cycle members) := by
  unfold dependencyProblem?
  split
  · exact fun h => nomatch h
  · split
    · exact fun h => nomatch h
    · exact fun h => nomatch h

/-- A circle is reported to the first packages of the names on it. -/
theorem cycle_mem_problems_iff {l : Location} {members : List String} :
    (l, PackageProblem.cycle members) ∈ g.problems ↔
      members ∈ g.cycles ∧ ∃ name ∈ members, ∃ p, g.byName? name = some p ∧ p.manifest = l := by
  have hsingle : (l, PackageProblem.cycle members) ∉ g.toList.flatMap fun p =>
      (p.dependencies.filterMap g.dependencyProblem?).map fun problem => (p.manifest, problem) := by
    intro h
    obtain ⟨p, -, hp⟩ := List.mem_flatMap.mp h
    obtain ⟨problem, hproblem, heq⟩ := List.mem_map.mp hp
    obtain ⟨d, -, hd⟩ := List.mem_filterMap.mp hproblem
    obtain rfl := (Prod.mk.inj heq).2
    exact g.dependencyProblem?_ne_cycle d members hd
  unfold problems
  dsimp only
  rw [List.mem_append, or_iff_right hsingle, List.mem_flatMap]
  constructor
  · rintro ⟨others, hothers, hmem⟩
    obtain ⟨p, hp, heq⟩ := List.mem_map.mp hmem
    obtain ⟨name, hname, hfound⟩ := List.mem_filterMap.mp hp
    obtain ⟨rfl, hcycle⟩ := Prod.mk.inj heq
    obtain rfl := PackageProblem.cycle.inj hcycle
    exact ⟨hothers, name, hname, p, hfound, rfl⟩
  · rintro ⟨hmembers, name, hname, p, hfound, rfl⟩
    exact ⟨members, hmembers, List.mem_map.mpr
      ⟨p, List.mem_filterMap.mpr ⟨name, hname, hfound⟩, rfl⟩⟩

theorem Rooted.nodup_toList (h : g.Rooted) : g.toList.Nodup := by
  have hsorted := LocationMap.pairwise_values (m := g.packages) fun root p hp => (h root p hp).1
  refine hsorted.imp fun {p q} hlt heq => ?_
  rw [heq] at hlt
  exact Location.lt_irrefl _ hlt

theorem Rooted.eq_of_manifest_eq (h : g.Rooted) (hp : p ∈ g.toList) (hq : q ∈ g.toList)
    (hmanifest : p.manifest = q.manifest) : p = q := by
  obtain ⟨-, hparent, -⟩ := h p.root p (h.get?_eq_some_iff.mpr ⟨hp, rfl⟩)
  obtain ⟨-, hother, -⟩ := h q.root q (h.get?_eq_some_iff.mpr ⟨hq, rfl⟩)
  rw [hmanifest] at hparent
  exact h.eq_of_root_eq hp hq (Option.some.inj (hparent.symm.trans hother))

theorem byName?_eq_some {name : String} (h : g.byName? name = some p) :
    p ∈ g.toList ∧ p.name = name :=
  ⟨List.mem_of_find?_eq_some h, by simpa using List.find?_some h⟩

/-- A circle is reported to a package if it is the first one of its name, and one of this name
leads to itself by way of last names. -/
theorem Rooted.cycle_reported_iff (h : g.Rooted) (hp : p ∈ g.toList) :
    (∃ members, (p.manifest, PackageProblem.cycle members) ∈ g.problems) ↔
      g.byName? p.name = some p ∧
        ∃ q ∈ g.toList, q.name = p.name ∧ TransGen (DependsOn g.lastByName?) q q := by
  constructor
  · rintro ⟨members, hmem⟩
    obtain ⟨hcycle, name, hname, q, hfound, hmanifest⟩ := cycle_mem_problems_iff.mp hmem
    obtain ⟨hq, rfl⟩ := byName?_eq_some hfound
    obtain rfl := h.eq_of_manifest_eq hq hp hmanifest
    obtain ⟨c, hc, rfl⟩ := mem_cycles_iff.mp hcycle
    obtain ⟨v, hv, hnode⟩ := List.mem_map.mp hname
    rw [List.mem_mergeSort] at hv
    exact ⟨hfound, g.toList.get v, List.get_mem g.toList v, hnode,
      (onCircle_edges_iff h.nodup_toList v).mp (Components.exists_mem_cyclic_iff.mp ⟨c, hc, hv⟩)⟩
  · rintro ⟨hfirst, q, hq, hname, hcircle⟩
    obtain ⟨v, rfl⟩ := List.get_of_mem hq
    obtain ⟨c, hc, hv⟩ := Components.exists_mem_cyclic_iff.mpr
      ((onCircle_edges_iff h.nodup_toList v).mpr hcircle)
    refine ⟨_, cycle_mem_problems_iff.mpr ⟨mem_cycles_iff.mpr ⟨c, hc, rfl⟩, p.name, ?_, p, hfirst,
      rfl⟩⟩
    exact List.mem_map.mpr ⟨v, List.mem_mergeSort.mpr hv, hname⟩

/-! ## Names that tell packages apart -/

/-- No two packages have the name of one dependency. -/
def TellsApart (g : PackageGraph) : Prop :=
  ∀ p ∈ g.toList, ∀ d ∈ p.dependencies, ∀ q ∈ g.toList, ∀ r ∈ g.toList,
    q.name = d.name → r.name = d.name → q = r

theorem find?_eq_some_iff_of_unique {name : String}
    (hunique : ∀ q ∈ packages, ∀ r ∈ packages, q.name = name → r.name = name → q = r) :
    packages.find? (·.name == name) = some q ↔ q ∈ packages ∧ q.name = name := by
  constructor
  · exact fun h => ⟨List.mem_of_find?_eq_some h, by simpa using List.find?_some h⟩
  · rintro ⟨hq, hname⟩
    cases hfind : packages.find? (·.name == name) with
    | none => exact absurd hname (by simpa using List.find?_eq_none.mp hfind q hq)
    | some r =>
        have hr : r.name = name := by simpa using List.find?_some hfind
        rw [hunique r (List.mem_of_find?_eq_some hfind) q hq hr hname]

/-- Where names tell packages apart, the first package of a name is the last one. -/
theorem TellsApart.dependsOn_iff (h : g.TellsApart) (hp : p ∈ g.toList) :
    DependsOn g.byName? p q ↔ DependsOn g.lastByName? p q := by
  refine exists_congr fun d => and_congr_right fun hd => ?_
  have hunique := h p hp d hd
  unfold byName? lastByName?
  rw [List.findRev?_eq_find?_reverse, find?_eq_some_iff_of_unique hunique,
    find?_eq_some_iff_of_unique fun q hq r hr =>
      hunique q (List.mem_reverse.mp hq) r (List.mem_reverse.mp hr), List.mem_reverse]

theorem mem_toList_of_dependsOn (h : DependsOn g.byName? p q) : q ∈ g.toList := by
  obtain ⟨d, -, hd⟩ := h
  exact (byName?_eq_some hd).1

/-- A chain of steps of one kind from a package of the graph is one of another kind if each step
inside the graph is. -/
theorem transGen_mono_inside {r s : Package → Package → Prop}
    (hstep : ∀ p q, p ∈ g.toList → r p q → q ∈ g.toList ∧ s p q) (hp : p ∈ g.toList)
    (h : TransGen r p q) : TransGen s p q := by
  have hboth : q ∈ g.toList ∧ TransGen s p q := by
    induction h with
    | single h => exact (hstep _ _ hp h).imp_right .single
    | tail _ h ih => exact (hstep _ _ ih.1 h).imp_right ih.2.tail
  exact hboth.2

theorem TellsApart.transGen_iff (h : g.TellsApart) (hp : p ∈ g.toList) :
    TransGen (DependsOn g.byName?) p q ↔ TransGen (DependsOn g.lastByName?) p q :=
  ⟨transGen_mono_inside (fun _ _ hp hstep =>
      ⟨mem_toList_of_dependsOn hstep, (h.dependsOn_iff hp).mp hstep⟩) hp,
    transGen_mono_inside (fun _ _ hp hstep =>
      ⟨mem_toList_of_dependsOn_last hstep, (h.dependsOn_iff hp).mpr hstep⟩) hp⟩

/-- The name of a package on a circle is that of a dependency. -/
theorem exists_dependency_of_circle (hp : p ∈ g.toList)
    (hcircle : TransGen (DependsOn g.lastByName?) p p) :
    ∃ q ∈ g.toList, ∃ d ∈ q.dependencies, p.name = d.name := by
  obtain ⟨q, hpath, d, hd, hfind⟩ := TransGen.tail'_iff.mp hcircle
  have hq : q ∈ g.toList := by
    rcases ReflTransGen.cases_tail_iff _ _ _ |>.mp hpath with rfl | ⟨r, -, hstep⟩
    · exact hp
    · exact mem_toList_of_dependsOn_last hstep
  unfold lastByName? at hfind
  rw [List.findRev?_eq_find?_reverse] at hfind
  exact ⟨q, hq, d, hd, by simpa using List.find?_some hfind⟩

/-- Where names tell packages apart, circles are reported to the packages that depend on
themselves. -/
theorem Rooted.cycle_reported_iff_of_tellsApart (h : g.Rooted) (hapart : g.TellsApart)
    (hp : p ∈ g.toList) : (∃ members, (p.manifest, PackageProblem.cycle members) ∈ g.problems) ↔
      TransGen (DependsOn g.byName?) p p := by
  rw [h.cycle_reported_iff hp, hapart.transGen_iff hp]
  constructor
  · rintro ⟨-, q, hq, hname, hcircle⟩
    obtain ⟨r, hr, d, hd, hdependency⟩ := exists_dependency_of_circle hq hcircle
    rwa [hapart r hr d hd q hq p hp hdependency (hname ▸ hdependency)] at hcircle
  · intro hcircle
    obtain ⟨r, hr, d, hd, hdependency⟩ := exists_dependency_of_circle hp hcircle
    refine ⟨?_, p, hp, rfl, hcircle⟩
    rw [hdependency]
    exact (find?_eq_some_iff_of_unique (hapart r hr d hd)).mpr ⟨hp, hdependency⟩

/-- **Which packages are reported to lie on a circle.**  In every graph that putting packages in
and taking them out leads to, a circle is reported to a package if and only if it is the first one
of its name, and a package of this name leads back to itself by one or more dependencies, when
names stand for the last packages of these names.  If each dependency names one package at most,
this is to say that the package leads back to itself when names are looked up as they are for
visibility and for unknown dependencies. -/
theorem cycle_reported_iff_onCircle (h : g.Arises) (hp : p ∈ g.toList) :
    ((∃ members, (p.manifest, PackageProblem.cycle members) ∈ g.problems) ↔
      g.byName? p.name = some p ∧
        ∃ q ∈ g.toList, q.name = p.name ∧ TransGen (DependsOn g.lastByName?) q q) ∧
    (g.TellsApart → ((∃ members, (p.manifest, PackageProblem.cycle members) ∈ g.problems) ↔
      TransGen (DependsOn g.byName?) p p)) :=
  ⟨h.rooted.cycle_reported_iff hp, fun hapart => h.rooted.cycle_reported_iff_of_tellsApart hapart hp⟩

/-- Two packages that depend on each other, and two of one name, which nothing depends on. -/
theorem cycle_reported_iff_onCircle_pair :
    let g := (((empty.declare "/a/package.json" "a" [⟨"b", "*"⟩]).declare "/b/package.json" "b"
      [⟨"a", "*"⟩]).declare "/c/package.json" "c" [⟨"a", "*"⟩]).declare "/d/package.json" "c" []
    g.Arises ∧ g.TellsApart ∧ ∃ p ∈ g.toList, p.name = "a" ∧
      ∃ members, (p.manifest, PackageProblem.cycle members) ∈ g.problems := by
  intro g
  have hg : g.Arises := (((Arises.empty.declare _ _ _).declare _ _ _).declare _ _ _).declare _ _ _
  have hapart : g.TellsApart := by
    unfold TellsApart
    decide +kernel
  have ha : (g.byName? "a").map (·.dependencies) = some [⟨"b", "*"⟩] := by decide +kernel
  have hb : (g.byName? "b").map (·.dependencies) = some [⟨"a", "*"⟩] := by decide +kernel
  obtain ⟨p, hp, hpq⟩ := Option.map_eq_some_iff.mp ha
  obtain ⟨q, hq, hqp⟩ := Option.map_eq_some_iff.mp hb
  have hcircle : TransGen (DependsOn g.byName?) p p :=
    .tail (.single ⟨⟨"b", "*"⟩, hpq ▸ List.mem_singleton_self _, hq⟩)
      ⟨⟨"a", "*"⟩, hqp ▸ List.mem_singleton_self _, hp⟩
  obtain ⟨hmem, hname⟩ := byName?_eq_some hp
  exact ⟨hg, hapart, p, hmem, hname,
    ((cycle_reported_iff_onCircle hg hmem).2 hapart).mpr hcircle⟩

/-- Of two packages of one name, a circle of the last one is reported to the first one. -/
theorem circle_reported_elsewhere :
    ¬ ∀ (g : PackageGraph) (p : Package), g.Arises → p ∈ g.toList →
      ((∃ members, (p.manifest, PackageProblem.cycle members) ∈ g.problems) ↔
        TransGen (DependsOn g.byName?) p p) := by
  intro h
  let g := (empty.declare "/a/package.json" "x" []).declare "/b/package.json" "x" [⟨"x", "*"⟩]
  have hg : g.Arises := (Arises.empty.declare _ _ _).declare _ _ _
  have hfirst : (g.byName? "x").map (fun p => (p.manifest, p.dependencies)) =
      some (⟨"/a/package.json"⟩, []) := by decide +kernel
  have hreported : (⟨"/a/package.json"⟩, PackageProblem.cycle ["x"]) ∈ g.problems := by
    decide +kernel
  obtain ⟨p, hp, heq⟩ := Option.map_eq_some_iff.mp hfirst
  obtain ⟨hmanifest, hnone⟩ := Prod.mk.inj heq
  rw [← hmanifest] at hreported
  have hcircle := (h g p hg (byName?_eq_some hp).1).mp ⟨_, hreported⟩
  -- the first one declares no dependencies
  obtain ⟨q, ⟨d, hd, -⟩, -⟩ := TransGen.head'_iff.mp hcircle
  rw [hnone] at hd
  exact absurd hd List.not_mem_nil

end PackageGraph
end ModelWorkspace
