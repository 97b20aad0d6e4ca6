import ModelWorkspace.Proofs.Package.Declared
import ModelWorkspace.Proofs.Text.LocationTree

/-!
# Which package owns a location

The roots that hold a location stand one in another, since a directory is in one directory only
(`Location.LiesIn.comparable`), and each is deeper than those around it.  So the deepest of them
is the nearest one, whatever the order in which they are looked at
(`LocationMap.foldl_deeper_eq_some_iff`).
-/

namespace ModelWorkspace

namespace Location

variable {l a b : Location}

/-- Two directories around a location are the same, or one lies in the other. -/
theorem LiesIn.comparable (ha : l.LiesIn a) (hb : l.LiesIn b) :
    a = b ∨ a.LiesIn b ∨ b.LiesIn a := by
  have hunique : Relator.RightUnique fun a b : Location => a.parent = some b :=
    fun _ _ _ hb hc => Option.some.inj (hb.symm.trans hc)
  rcases Relation.ReflTransGen.total_of_right_unique hunique ha.to_reflTransGen
    hb.to_reflTransGen with h | h
  · exact (Relation.reflTransGen_iff_eq_or_transGen.mp h).imp Eq.symm .inl
  · exact (Relation.reflTransGen_iff_eq_or_transGen.mp h).imp id .inr

theorem LiesIn.depth_lt (hl : l.IsResolved) (h : l.LiesIn a) : a.depth < l.depth := by
  have hboth : a.IsResolved ∧ a.depth < l.depth := by
    induction h with
    | single h => exact ⟨hl.parent h, by rw [hl.depth_of_parent h]; exact Nat.lt_succ_self _⟩
    | tail _ h ih =>
        refine ⟨ih.1.parent h, Nat.lt_trans ?_ ih.2⟩
        rw [ih.1.depth_of_parent h]
        exact Nat.lt_succ_self _
  exact hboth.2

end Location

namespace LocationMap

variable {α : Type} {found : Option (Location × α)} {entries others : List (Location × α)}
  {best : Location × α}

theorem exists_deeper (found : Option (Location × α)) (first : Location × α) :
    ∃ e, deeper found first = some e ∧ first.1.depth ≤ e.1.depth ∧
      ∀ other, found = some other → other.1.depth ≤ e.1.depth := by
  unfold deeper
  cases found with
  | none => exact ⟨first, rfl, Nat.le_refl _, fun other h => nomatch h⟩
  | some other =>
      by_cases hle : other.1.depth ≤ first.1.depth
      · exact ⟨first, if_pos hle, Nat.le_refl _, fun e he => Option.some.inj he ▸ hle⟩
      · exact ⟨other, if_neg hle, Nat.le_of_not_le hle, fun e he =>
          Option.some.inj he ▸ Nat.le_refl _⟩

/-- No entry is deeper than the one that is kept. -/
theorem depth_le_of_foldl_deeper (h : entries.foldl deeper found = some best) :
    (∀ e ∈ entries, e.1.depth ≤ best.1.depth) ∧
      ∀ e, found = some e → e.1.depth ≤ best.1.depth := by
  induction entries generalizing found with
  | nil =>
      refine ⟨fun e he => absurd he List.not_mem_nil, fun e he => ?_⟩
      obtain rfl := Option.some.inj (he.symm.trans h)
      exact Nat.le_refl _
  | cons first entries ih =>
      obtain ⟨kept, hkept, hfirst, hfound⟩ := exists_deeper found first
      obtain ⟨hrest, hle⟩ := ih h
      have hbest := hle kept hkept
      exact ⟨List.forall_mem_cons.mpr ⟨Nat.le_trans hfirst hbest, hrest⟩,
        fun e he => Nat.le_trans (hfound e he) hbest⟩

/-- Among entries of which no two are equally deep, the one that is kept is told by its depth. -/
theorem foldl_deeper_eq_some_iff
    (hdepth : ∀ d ∈ entries, ∀ e ∈ entries, d.1.depth = e.1.depth → d = e) :
    entries.foldl deeper none = some best ↔
      best ∈ entries ∧ ∀ e ∈ entries, e.1.depth ≤ best.1.depth := by
  constructor
  · intro h
    refine ⟨?_, (depth_le_of_foldl_deeper h).1⟩
    rcases foldl_deeper none entries with ⟨-, hnone⟩ | ⟨e, he, hmem⟩
    · rw [hnone] at h
      cases h
    · obtain rfl := Option.some.inj (he.symm.trans h)
      exact hmem.resolve_right fun hnone => nomatch hnone
  · rintro ⟨hmem, hdeepest⟩
    rcases foldl_deeper none entries with ⟨hnil, -⟩ | ⟨e, he, hfrom⟩
    · rw [hnil] at hmem
      exact absurd hmem List.not_mem_nil
    · have hin : e ∈ entries := hfrom.resolve_right fun hnone => nomatch hnone
      have hle := (depth_le_of_foldl_deeper he).1 best hmem
      rw [he, hdepth e hin best hmem (Nat.le_antisymm (hdeepest e hin) hle)]

/-- The order of the entries does not matter to which of them is kept. -/
theorem foldl_deeper_perm
    (hdepth : ∀ d ∈ entries, ∀ e ∈ entries, d.1.depth = e.1.depth → d = e)
    (h : others.Perm entries) : others.foldl deeper none = entries.foldl deeper none := by
  refine Option.ext fun best => ?_
  rw [foldl_deeper_eq_some_iff hdepth, foldl_deeper_eq_some_iff fun d hd e he =>
    hdepth d (h.mem_iff.mp hd) e (h.mem_iff.mp he), h.mem_iff]
  exact and_congr_right fun _ => forall_congr' fun e => by rw [h.mem_iff]

end LocationMap

namespace PackageGraph

/-- The graphs that come about when packages that manifests declare are put in, and packages are
taken out by their manifests or with a directory. -/
inductive Arises : PackageGraph → Prop
  | empty : Arises empty
  | insert {g : PackageGraph} {l : Location} {manifest : Manifest} {p : Package} (h : Arises g)
      (hl : l.IsResolved) (hp : Package.ofManifest l manifest = some p) : Arises (g.insert p)
  | removeManifest {g : PackageGraph} (h : Arises g) (manifest : Location) :
      Arises (g.removeManifest manifest)
  | removeWithin {g : PackageGraph} (h : Arises g) (directory : Location) :
      Arises (g.removeWithin directory)

/-- Every package stands at its root, which is the directory that holds its manifest. -/
def Rooted (g : PackageGraph) : Prop :=
  ∀ root p, g.packages.get? root = some p →
    p.root = root ∧ p.manifest.parent = some root ∧ p.manifest.IsResolved

variable {g : PackageGraph} {l : Location} {p q : Package}

theorem Rooted.insert (h : g.Rooted) (hparent : p.manifest.parent = some p.root)
    (hresolved : p.manifest.IsResolved) : (g.insert p).Rooted := by
  intro root q hq
  rcases LocationMap.get?_insert_eq_some_iff.mp hq with ⟨rfl, rfl⟩ | ⟨-, hq⟩
  · exact ⟨rfl, hparent, hresolved⟩
  · exact h root q hq

theorem Arises.rooted (h : g.Arises) : g.Rooted := by
  induction h with
  | empty => exact fun root p hp => nomatch hp
  | insert _ hl hp ih =>
      obtain ⟨root, hroot, rfl⟩ := Option.map_eq_some_iff.mp hp
      exact ih.insert hroot hl
  | removeManifest _ manifest ih =>
      unfold PackageGraph.removeManifest
      split
      · exact fun root p hp => ih root p (LocationMap.get?_erase_eq_some_iff.mp hp).2
      · exact ih
  | removeWithin _ directory ih =>
      intro root p hp
      unfold PackageGraph.removeWithin at hp
      rw [LocationMap.get?_filter, Option.filter_eq_some_iff] at hp
      exact ih root p hp.1

theorem Rooted.get?_eq_some_iff (h : g.Rooted) {root : Location} :
    g.packages.get? root = some p ↔ p ∈ g.toList ∧ p.root = root := by
  unfold toList
  rw [LocationMap.mem_values_iff]
  constructor
  · exact fun hget => ⟨⟨root, hget⟩, (h root p hget).1⟩
  · rintro ⟨⟨other, hget⟩, rfl⟩
    rw [(h other p hget).1]
    exact hget

theorem Rooted.eq_of_root_eq (h : g.Rooted) (hp : p ∈ g.toList) (hq : q ∈ g.toList)
    (hroot : p.root = q.root) : p = q := by
  have hget := h.get?_eq_some_iff.mpr ⟨hp, hroot⟩
  exact Option.some.inj (hget.symm.trans (h.get?_eq_some_iff.mpr ⟨hq, rfl⟩))

theorem Rooted.isResolved_root (h : g.Rooted) (hp : p ∈ g.toList) : p.root.IsResolved := by
  obtain ⟨-, hparent, hmanifest⟩ := h p.root p (h.get?_eq_some_iff.mpr ⟨hp, rfl⟩)
  exact hmanifest.parent hparent

/-- To lie below the root of a package is to lie in it. -/
theorem Rooted.isBelow_iff_liesIn (h : g.Rooted) (hp : p ∈ g.toList) (hl : l.IsResolved) :
    l.isBelow p.root = true ↔ l.LiesIn p.root := by
  obtain ⟨-, hparent, -⟩ := h p.root p (h.get?_eq_some_iff.mpr ⟨hp, rfl⟩)
  refine hl.isBelow_iff_liesIn (h.isResolved_root hp) fun hempty => ?_
  exact Location.chars_ne_nil_of_parent hparent ((Location.path_eq_empty_iff _).mp hempty)

/-- The entries of the packages that a location lies in. -/
def around (g : PackageGraph) (l : Location) : List (Location × Package) :=
  g.packages.entries.filter fun e => l.isBelow e.1

theorem Rooted.mem_around_iff (h : g.Rooted) (hl : l.IsResolved) {e : Location × Package} :
    e ∈ g.around l ↔ e.2 ∈ g.toList ∧ e.1 = e.2.root ∧ l.LiesIn e.2.root := by
  unfold around
  rw [List.mem_filter, ← LocationMap.get?_eq_some_iff, h.get?_eq_some_iff, and_assoc]
  refine and_congr_right fun hmem => ?_
  rw [eq_comm]
  refine and_congr_right fun hroot => ?_
  rw [hroot]
  exact h.isBelow_iff_liesIn hmem hl

/-- The roots around a location form a chain. -/
theorem Rooted.comparable (h : g.Rooted) (hp : p ∈ g.toList) (hq : q ∈ g.toList)
    (hlp : l.LiesIn p.root) (hlq : l.LiesIn q.root) :
    p = q ∨ (p.root.LiesIn q.root ∧ q.root.depth < p.root.depth) ∨
      (q.root.LiesIn p.root ∧ p.root.depth < q.root.depth) := by
  rcases hlp.comparable hlq with hroot | hin | hin
  · exact .inl (h.eq_of_root_eq hp hq hroot)
  · exact .inr (.inl ⟨hin, hin.depth_lt (h.isResolved_root hp)⟩)
  · exact .inr (.inr ⟨hin, hin.depth_lt (h.isResolved_root hq)⟩)

/-- No two roots around a location are equally deep. -/
theorem Rooted.eq_of_depth_eq (h : g.Rooted) (hl : l.IsResolved) :
    ∀ d ∈ g.around l, ∀ e ∈ g.around l, d.1.depth = e.1.depth → d = e := by
  rintro ⟨droot, d⟩ hd ⟨eroot, e⟩ he hdepth
  obtain ⟨hdmem, hdroot, hld⟩ := (h.mem_around_iff hl).mp hd
  obtain ⟨hemem, heroot, hle⟩ := (h.mem_around_iff hl).mp he
  dsimp only at *
  subst hdroot heroot
  rcases h.comparable hdmem hemem hld hle with rfl | ⟨-, hlt⟩ | ⟨-, hlt⟩
  · rfl
  · exact absurd hdepth (Nat.ne_of_gt hlt)
  · exact absurd hdepth (Nat.ne_of_lt hlt)

theorem Rooted.packageFor?_eq_some_iff_deepest (h : g.Rooted) (hl : l.IsResolved) :
    g.packageFor? l = some p ↔
      (p.root, p) ∈ g.around l ∧ ∀ e ∈ g.around l, e.1.depth ≤ p.root.depth := by
  have hfold : (g.around l).foldl LocationMap.deeper none = some (p.root, p) ↔ _ :=
    LocationMap.foldl_deeper_eq_some_iff (h.eq_of_depth_eq hl)
  rw [← hfold]
  show ((g.around l).foldl LocationMap.deeper none).map (·.2) = some p ↔ _
  rw [Option.map_eq_some_iff]
  constructor
  · rintro ⟨⟨root, q⟩, he, rfl⟩
    obtain ⟨hmem, -⟩ := (LocationMap.foldl_deeper_eq_some_iff (h.eq_of_depth_eq hl)).mp he
    obtain ⟨-, hroot : root = q.root, -⟩ := (h.mem_around_iff hl).mp hmem
    rw [he, hroot]
  · exact fun he => ⟨_, he, rfl⟩

/-- The deepest root around a location is the nearest one. -/
theorem Rooted.packageFor?_eq_some_iff (h : g.Rooted) (hl : l.IsResolved) :
    g.packageFor? l = some p ↔ p ∈ g.toList ∧ l.LiesIn p.root ∧
      ∀ q ∈ g.toList, ¬ (l.LiesIn q.root ∧ q.root.LiesIn p.root) := by
  rw [h.packageFor?_eq_some_iff_deepest hl, h.mem_around_iff hl]
  constructor
  · rintro ⟨⟨hp, -, hlp⟩, hdeepest⟩
    refine ⟨hp, hlp, fun q hq ⟨hlq, hqp⟩ => ?_⟩
    have hle := hdeepest (q.root, q) ((h.mem_around_iff hl).mpr ⟨hq, rfl, hlq⟩)
    exact Nat.not_lt_of_le hle (hqp.depth_lt (h.isResolved_root hq))
  · rintro ⟨hp, hlp, hnearest⟩
    refine ⟨⟨hp, rfl, hlp⟩, fun e he => ?_⟩
    obtain ⟨hq, hroot, hlq⟩ := (h.mem_around_iff hl).mp he
    rw [hroot]
    rcases h.comparable hp hq hlp hlq with heq | ⟨-, hlt⟩ | ⟨hin, -⟩
    · rw [heq]
    · exact Nat.le_of_lt hlt
    · exact absurd ⟨hlq, hin⟩ (hnearest e.2 hq)

theorem Rooted.packageFor?_eq_none_iff (h : g.Rooted) (hl : l.IsResolved) :
    g.packageFor? l = none ↔ ∀ p ∈ g.toList, ¬ l.LiesIn p.root := by
  have hsome : (g.packageFor? l).isSome = true ↔ ∃ p ∈ g.toList, l.LiesIn p.root := by
    unfold packageFor?
    rw [Option.isSome_map, LocationMap.deepest?_isSome_iff]
    constructor
    · rintro ⟨root, p, hget, hbelow⟩
      obtain ⟨hp, rfl⟩ := h.get?_eq_some_iff.mp hget
      exact ⟨p, hp, (h.isBelow_iff_liesIn hp hl).mp hbelow⟩
    · rintro ⟨p, hp, hin⟩
      exact ⟨p.root, p, h.get?_eq_some_iff.mpr ⟨hp, rfl⟩, (h.isBelow_iff_liesIn hp hl).mpr hin⟩
  rw [← Option.not_isSome_iff_eq_none, hsome]
  simp

/-- **The nearest root owns.**  In every graph that putting packages in and taking them out leads
to, and for every location: it belongs to the package in whose root it lies such that no other
root stands between them, and to none if it lies in no root.  Of two packages in whose roots it
lies, one root lies in the other and is deeper.  So the answer does not depend on the order in
which the packages are looked at. -/
theorem packageFor?_isNearest (h : g.Arises) (hl : l.IsResolved) :
    (∀ p, g.packageFor? l = some p ↔ p ∈ g.toList ∧ l.LiesIn p.root ∧
      ∀ q ∈ g.toList, ¬ (l.LiesIn q.root ∧ q.root.LiesIn p.root)) ∧
    (g.packageFor? l = none ↔ ∀ p ∈ g.toList, ¬ l.LiesIn p.root) ∧
    (∀ p ∈ g.toList, ∀ q ∈ g.toList, l.LiesIn p.root → l.LiesIn q.root →
      p = q ∨ (p.root.LiesIn q.root ∧ q.root.depth < p.root.depth) ∨
        (q.root.LiesIn p.root ∧ p.root.depth < q.root.depth)) ∧
    ∀ entries : List (Location × Package), entries.Perm g.packages.entries →
      ((entries.filter fun e => l.isBelow e.1).foldl LocationMap.deeper none).map (·.2) =
        g.packageFor? l := by
  have hrooted := h.rooted
  refine ⟨fun p => hrooted.packageFor?_eq_some_iff hl, hrooted.packageFor?_eq_none_iff hl,
    fun p hp q hq => hrooted.comparable hp hq, fun entries hperm => ?_⟩
  exact congrArg (Option.map (·.2))
    (LocationMap.foldl_deeper_perm (hrooted.eq_of_depth_eq hl) (hperm.filter _))

/-- The graph with the package of a name that a manifest at a path declares. -/
def declare (g : PackageGraph) (path name : String) (dependencies : List Dependency) :
    PackageGraph :=
  match Package.ofManifest (.ofPath path) { name := name, dependencies := dependencies } with
  | some p => g.insert p
  | none => g

theorem Arises.declare (h : g.Arises) (path name : String) (dependencies : List Dependency) :
    (g.declare path name dependencies).Arises := by
  unfold PackageGraph.declare
  split
  · rename_i p hp
    exact h.insert (Location.IsPath.isResolved ⟨path, rfl⟩) hp
  · exact h

/-- A package inside another one, and one beside it whose directory has a name that starts
alike. -/
theorem packageFor?_isNearest_inner :
    let g := ((empty.declare "/ws/package.json" "outer" []).declare "/ws/inner/package.json"
      "inner" []).declare "/ws/in/package.json" "in" []
    let l := Location.ofPath "/ws/inner/a.cm"
    g.Arises ∧ l.IsResolved ∧ ∃ p, g.packageFor? l = some p ∧ p.name = "inner" ∧
      ∀ q ∈ g.toList, ¬ (l.LiesIn q.root ∧ q.root.LiesIn p.root) := by
  intro g l
  have hg : g.Arises := ((Arises.empty.declare _ _ _).declare _ _ _).declare _ _ _
  have hl : l.IsResolved := Location.IsPath.isResolved ⟨_, rfl⟩
  have howner : (g.packageFor? l).map (·.name) = some "inner" := by
    decide +kernel
  obtain ⟨p, hp, hname⟩ := Option.map_eq_some_iff.mp howner
  obtain ⟨hnearest, -⟩ := packageFor?_isNearest hg hl
  exact ⟨hg, hl, p, hp, hname, ((hnearest p).mp hp).2.2⟩

end PackageGraph
end ModelWorkspace
