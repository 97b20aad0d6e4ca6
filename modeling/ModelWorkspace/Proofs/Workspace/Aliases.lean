import ModelWorkspace.Proofs.Package.Ownership
import ModelWorkspace.Proofs.Workspace.Report

/-!
# Where aliases lead

What lies within an alias leads to the same place below its target (`Governs.resolve_descend`),
once: what is reached is real, so that it leads to itself, when no alias is around it in its turn,
or the deepest one stands for itself (`HasProperAliases.isReal_iff`).  Whether that is so
everywhere shows at few places, namely at the aliases, and at what leads to an alias
(`isReal_canonical_all_iff`).  Where it is so, and only there, all that a disk is asked has the
same answer at a location and at the one that it leads to (`isReal_iff_answersAlike`).
-/

namespace ModelWorkspace
namespace Location

variable {absolute : Bool} {xs more rest : List (List Char)} {a b l name : Location}

/-! ## Down from a location -/

/-- Segments that lead down from wherever they start. -/
structure LeadDown (segments : List (List Char)) : Prop where
  separable : AreSeparable segments
  not_dot : ['.'] ∉ segments
  not_up : ['.', '.'] ∉ segments

/-- The location that is some segments further down. -/
def descend (l : Location) (segments : List (List Char)) : Location :=
  ofSegments l.isAbsolute (l.segments ++ segments)

/-- The segments that lead down from one location to another, if there are such. -/
def pathDown? (l below : Location) : Option (List (List Char)) :=
  let segments := below.segments.drop l.segments.length
  if below.isAbsolute = l.isAbsolute ∧ l.segments <+: below.segments ∧ ['.', '.'] ∉ segments then
    some segments
  else none

/-- A location with a segment that does not lead up: neither the root, nor the empty location, nor
one above it. -/
def IsProper (l : Location) : Prop :=
  l.IsResolved ∧ ∃ s ∈ l.segments, s ≠ ['.', '.']

/-- Behind a segment that does not lead up no segment does. -/
theorem AreResolved.leadDown (h : AreResolved absolute (xs ++ more))
    (hproper : ∃ s ∈ xs, s ≠ ['.', '.']) : LeadDown more where
  separable := h.separable.of_append.2
  not_dot := fun hmem => h.not_dot (List.mem_append_right xs hmem)
  not_up := by
    intro hmem
    obtain ⟨s, hs, hne⟩ := hproper
    exact hne ((List.pairwise_append.mp h.leading).2.2 s hs _ hmem rfl)

theorem LeadDown.append (h : LeadDown more) (hxs : AreResolved absolute xs) :
    AreResolved absolute (xs ++ more) where
  separable := List.forall_mem_append.mpr ⟨hxs.separable, h.separable⟩
  not_dot := by
    rw [List.mem_append, not_or]
    exact ⟨hxs.not_dot, h.not_dot⟩
  leading := List.pairwise_append.mpr ⟨hxs.leading,
    List.pairwise_of_forall_mem_list fun _ _ t ht hup => absurd (hup ▸ ht) h.not_up,
    fun _ _ t ht hup => absurd (hup ▸ ht) h.not_up⟩
  relative := fun hmem =>
    hxs.relative ((List.mem_append.mp hmem).resolve_right h.not_up)

theorem LeadDown.of_append (h : LeadDown (more ++ rest)) : LeadDown more ∧ LeadDown rest where
  left := ⟨h.separable.of_append.1, fun hmem => h.not_dot (List.mem_append_left rest hmem),
    fun hmem => h.not_up (List.mem_append_left rest hmem)⟩
  right := ⟨h.separable.of_append.2, fun hmem => h.not_dot (List.mem_append_right more hmem),
    fun hmem => h.not_up (List.mem_append_right more hmem)⟩

namespace IsResolved

theorem areResolved (h : l.IsResolved) : AreResolved l.isAbsolute l.segments :=
  h.isNormal.resolved

theorem descend_nil (h : l.IsResolved) : l.descend [] = l := by
  unfold descend
  rw [List.append_nil]
  exact h.isNormal.spelled.symm

theorem descend (h : l.IsResolved) (hmore : LeadDown more) : (l.descend more).IsResolved :=
  isResolved_ofSegments (hmore.append h.areResolved)

theorem segments_descend (h : l.IsResolved) (hmore : LeadDown more) :
    (l.descend more).segments = l.segments ++ more :=
  segments_ofSegments (hmore.append h.areResolved).separable

theorem isAbsolute_descend (h : l.IsResolved) (hmore : LeadDown more) :
    (l.descend more).isAbsolute = l.isAbsolute :=
  isAbsolute_ofSegments (hmore.append h.areResolved).separable

theorem descend_append (h : l.IsResolved) (hmore : LeadDown more) (rest : List (List Char)) :
    l.descend (more ++ rest) = (l.descend more).descend rest := by
  show _ = ofSegments (l.descend more).isAbsolute ((l.descend more).segments ++ rest)
  rw [h.segments_descend hmore, h.isAbsolute_descend hmore, List.append_assoc]
  rfl

/-- Resolved locations with the same segments, both given from the root on or both not, are the
same. -/
theorem ext_segments (ha : a.IsResolved) (hb : b.IsResolved)
    (habsolute : a.isAbsolute = b.isAbsolute) (hsegments : a.segments = b.segments) : a = b := by
  rw [ha.isNormal.spelled, hb.isNormal.spelled, habsolute, hsegments]

theorem eq_of_descend_eq (ha : a.IsResolved) (hb : b.IsResolved) (hmore : LeadDown more)
    (h : a.descend more = b.descend more) : a = b := by
  have habsolute := congrArg isAbsolute h
  have hsegments := congrArg segments h
  rw [ha.isAbsolute_descend hmore, hb.isAbsolute_descend hmore] at habsolute
  rw [ha.segments_descend hmore, hb.segments_descend hmore] at hsegments
  exact ha.ext_segments hb habsolute (List.append_cancel_right hsegments)

/-- Of two locations with a place below both, one lies below the other or is the same. -/
theorem descend_eq_descend (ha : a.IsResolved) (hb : b.IsResolved) (hmore : LeadDown more)
    (hrest : LeadDown rest) (h : a.descend more = b.descend rest) :
    (∃ between, LeadDown between ∧ b = a.descend between ∧ more = between ++ rest) ∨
      ∃ between, LeadDown between ∧ a = b.descend between ∧ rest = between ++ more := by
  have habsolute := congrArg isAbsolute h
  have hsegments := congrArg segments h
  rw [ha.isAbsolute_descend hmore, hb.isAbsolute_descend hrest] at habsolute
  rw [ha.segments_descend hmore, hb.segments_descend hrest] at hsegments
  rcases List.append_eq_append_iff.mp hsegments with ⟨between, hbelow, rfl⟩ | ⟨between, hbelow, rfl⟩
  · have hbetween := hmore.of_append.1
    refine .inl ⟨between, hbetween, hb.ext_segments (ha.descend hbetween) ?_ ?_, rfl⟩
    · rw [ha.isAbsolute_descend hbetween, habsolute]
    · rw [ha.segments_descend hbetween, hbelow]
  · have hbetween := hrest.of_append.1
    refine .inr ⟨between, hbetween, ha.ext_segments (hb.descend hbetween) ?_ ?_, rfl⟩
    · rw [hb.isAbsolute_descend hbetween, habsolute]
    · rw [hb.segments_descend hbetween, hbelow]

theorem pathDown?_eq_some_iff (ha : a.IsResolved) (hb : b.IsResolved) :
    a.pathDown? b = some more ↔ LeadDown more ∧ b = a.descend more := by
  unfold pathDown?
  dsimp only
  rw [Option.ite_none_right_eq_some]
  constructor
  · rintro ⟨⟨habsolute, ⟨rest, hsegments⟩, hup⟩, heq⟩
    obtain rfl := Option.some.inj heq
    rw [← hsegments, List.drop_left] at hup ⊢
    have hresolved := hsegments.symm ▸ hb.areResolved
    have hrest : LeadDown rest := ⟨hresolved.separable.of_append.2,
      fun hmem => hresolved.not_dot (List.mem_append_right _ hmem), hup⟩
    refine ⟨hrest, hb.ext_segments (ha.descend hrest) ?_ ?_⟩
    · rw [ha.isAbsolute_descend hrest, habsolute]
    · rw [ha.segments_descend hrest, hsegments]
  · rintro ⟨hmore, rfl⟩
    rw [ha.isAbsolute_descend hmore, ha.segments_descend hmore, List.drop_left]
    exact ⟨⟨rfl, List.prefix_append _ _, hmore.not_up⟩, rfl⟩

end IsResolved

/-- A path with the segments of a resolved location leads there. -/
theorem resolve_eq_ofSegments {cs : List Char}
    (h : AreResolved (cs.head? == some '/') ((cs.splitOn '/').filter (· ≠ []))) :
    resolve cs = ofSegments (cs.head? == some '/') ((cs.splitOn '/').filter (· ≠ [])) := by
  unfold resolve
  dsimp only
  rw [resolveSegments_eq_filter h]
  rfl

/-- To join segments that lead down is to go down. -/
theorem IsResolved.join_joined (h : l.IsResolved) (hmore : LeadDown more) (hne : more ≠ []) :
    l.join (String.ofList (['/'].intercalate more)) = l.descend more := by
  have hjoined : ((['/'].intercalate more).splitOn '/').filter (· ≠ []) = more := by
    rw [splitOn_joined hmore.separable hne]
    exact List.filter_eq_self.mpr fun s hs => decide_eq_true (hmore.separable s hs).1
  unfold join
  rw [String.toList_ofList]
  by_cases hempty : l.path = ""
  · -- below the empty location there is just what follows
    have hl : l = ofSegments false [] := ext_path hempty
    have hmore' : AreResolved false more := hmore.append (areResolved_nil false)
    have hspelled : (ofSegments false more).chars = ['/'].intercalate more := chars_ofSegments _ _
    rw [if_pos (.inr hempty), ← hspelled, resolve_chars_ofSegments hmore', hl]
    rfl
  · have hhead : ((l.chars ++ '/' :: ['/'].intercalate more).head? == some '/') = l.isAbsolute := by
      obtain ⟨first, others, hchars⟩ :=
        List.exists_cons_of_ne_nil (mt (path_eq_empty_iff l).mpr hempty)
      unfold isAbsolute
      rw [hchars]
      rfl
    have hsegments : ((l.chars ++ '/' :: ['/'].intercalate more).splitOn '/').filter (· ≠ []) =
        l.segments ++ more := by
      rw [splitOn_append_cons, List.filter_append, hjoined]
      rfl
    rw [if_neg (not_or.mpr ⟨head?_intercalate hmore.separable, hempty⟩), resolve_eq_ofSegments]
    · rw [hhead, hsegments]
      rfl
    · rw [hhead, hsegments]
      exact hmore.append h.areResolved

namespace IsProper

theorem segments_ne_nil (h : name.IsProper) : name.segments ≠ [] := by
  obtain ⟨-, s, hs, -⟩ := h
  exact List.ne_nil_of_mem hs

theorem path_ne_empty (h : name.IsProper) : name.path ≠ "" := by
  intro hempty
  have hchars : name.chars = [] := (path_eq_empty_iff name).mp hempty
  refine h.segments_ne_nil ?_
  unfold segments
  rw [hchars]
  rfl

theorem path_ne_root (h : name.IsProper) : name.path ≠ "/" := by
  intro hroot
  refine h.segments_ne_nil ?_
  unfold segments chars
  rw [hroot]
  rfl

theorem isWithin_iff_segments (h : name.IsProper) (hl : l.IsResolved) :
    l.isWithin name = true ↔ l.isAbsolute = name.isAbsolute ∧ name.segments <+: l.segments := by
  rw [isWithin_iff_eq_or_isBelow, hl.isBelow_iff h.1 h.path_ne_empty]
  constructor
  · rintro (rfl | ⟨habsolute, hstarts, -⟩)
    · exact ⟨rfl, List.prefix_refl _⟩
    · exact ⟨habsolute, hstarts⟩
  · rintro ⟨habsolute, hstarts⟩
    by_cases heq : name.segments = l.segments
    · exact .inl (hl.ext_segments h.1 habsolute heq.symm)
    · exact .inr ⟨habsolute, hstarts, heq⟩

/-- What lies within a proper location is found by going down from it. -/
theorem isWithin_iff (h : name.IsProper) (hl : l.IsResolved) :
    l.isWithin name = true ↔ ∃ more, LeadDown more ∧ l = name.descend more := by
  rw [h.isWithin_iff_segments hl]
  constructor
  · rintro ⟨habsolute, more, hsegments⟩
    have hmore : LeadDown more := (hsegments ▸ hl.areResolved).leadDown h.2
    refine ⟨more, hmore, hl.ext_segments (h.1.descend hmore) ?_ ?_⟩
    · rw [h.1.isAbsolute_descend hmore, habsolute]
    · rw [h.1.segments_descend hmore, hsegments]
  · rintro ⟨more, hmore, rfl⟩
    rw [h.1.isAbsolute_descend hmore, h.1.segments_descend hmore]
    exact ⟨rfl, List.prefix_append _ _⟩

theorem isWithin_descend (h : name.IsProper) (hmore : LeadDown more) :
    (name.descend more).isWithin name = true :=
  (h.isWithin_iff (h.1.descend hmore)).mpr ⟨more, hmore, rfl⟩

theorem descend (h : name.IsProper) (hmore : LeadDown more) : (name.descend more).IsProper := by
  obtain ⟨s, hs, hne⟩ := h.2
  refine ⟨h.1.descend hmore, s, ?_, hne⟩
  rw [h.1.segments_descend hmore]
  exact List.mem_append_left more hs

/-- What follows a proper location and the separator behind it. -/
theorem drop_chars_descend (h : name.IsProper) (hne : more ≠ []) :
    (name.descend more).chars.drop (name.chars.length + 1) = ['/'].intercalate more := by
  have hchars : (name.descend more).chars = name.chars ++ '/' :: ['/'].intercalate more := by
    have hname := congrArg chars h.1.isNormal.spelled
    rw [chars_ofSegments] at hname
    rw [hname, Location.descend, chars_ofSegments, joined_append h.segments_ne_nil hne]
    cases name.isAbsolute with
    | true => rfl
    | false => rfl
  rw [hchars, ← List.drop_drop, List.drop_left]
  rfl

/-- Of the locations around a place the deeper one lies within the other. -/
theorem isWithin_iff_depth_le (ha : a.IsProper) (hb : b.IsProper) (hl : l.IsResolved)
    (hla : l.isWithin a = true) (hlb : l.isWithin b = true) :
    a.isWithin b = true ↔ b.depth ≤ a.depth := by
  obtain ⟨habsolute, haround⟩ := (ha.isWithin_iff_segments hl).mp hla
  obtain ⟨hother, hbeyond⟩ := (hb.isWithin_iff_segments hl).mp hlb
  rw [hb.isWithin_iff_segments ha.1, depth_eq, depth_eq]
  constructor
  · exact fun h => h.2.length_le
  · exact fun hle =>
      ⟨habsolute.symm.trans hother, List.prefix_of_prefix_length_le hbeyond haround hle⟩

theorem eq_of_isWithin (ha : a.IsProper) (hb : b.IsProper) (hab : a.isWithin b = true)
    (hba : b.isWithin a = true) : a = b := by
  obtain ⟨habsolute, hle⟩ := (hb.isWithin_iff_segments ha.1).mp hab
  obtain ⟨-, hge⟩ := (ha.isWithin_iff_segments hb.1).mp hba
  exact ha.1.ext_segments hb.1 habsolute (hge.eq_of_length_le hle.length_le)

end IsProper

theorem isWithin_trans (hab : a.isWithin b = true) (hbl : b.isWithin l = true) :
    a.isWithin l = true := by
  rcases isWithin_iff_eq_or_isBelow.mp hab with rfl | hbelow
  · exact hbl
  · exact isWithin_of_isBelow hbelow hbl

end Location

namespace Disk

variable {disk : Disk} {l name target other : Location} {more : List (List Char)}

/-! ## The alias that counts -/

/-- The names of aliases have a segment that does not lead up, and what they stand for is
resolved. -/
structure HasProperAliases (disk : Disk) : Prop where
  name : ∀ name target, disk.aliases.get? name = some target → name.IsProper
  target : ∀ name target, disk.aliases.get? name = some target → target.IsResolved

/-- The alias that counts at a location, with what it stands for. -/
def Governs (disk : Disk) (l name target : Location) : Prop :=
  disk.aliases.deepest? l.isWithin = some (name, target)

/-- A location that leads to itself. -/
def IsReal (disk : Disk) (l : Location) : Prop :=
  disk.resolve l = .ok l

instance (disk : Disk) (l : Location) : Decidable (disk.IsReal l) :=
  inferInstanceAs (Decidable (disk.resolve l = .ok l))

theorem IsReal.canonical_eq (h : disk.IsReal l) : disk.canonical l = l :=
  Disk.canonical_eq h

/-- Only what leads somewhere leads to a real location. -/
theorem IsReal.resolve_eq (h : disk.IsReal (disk.canonical l)) :
    disk.resolve l = .ok (disk.canonical l) := by
  refine (disk.resolve_cases l).resolve_right fun hsplits => ?_
  -- what is cut stands for itself, and so it would lead to itself
  have hself : disk.canonical l = l := by
    unfold canonical
    rw [hsplits]
    rfl
  rw [hself] at h
  cases h.symm.trans hsplits

theorem isReal_of_not_governs (h : ∀ name target, ¬ disk.Governs l name target) :
    disk.IsReal l :=
  resolve_of_unaliased (Option.eq_none_iff_forall_ne_some.mpr fun entry => h entry.1 entry.2)

/-- Of the aliases around a location the one within all others counts. -/
theorem HasProperAliases.governs_iff (h : disk.HasProperAliases) (hl : l.IsResolved) :
    disk.Governs l name target ↔ disk.aliases.get? name = some target ∧ l.isWithin name = true ∧
      ∀ other beyond, disk.aliases.get? other = some beyond → l.isWithin other = true →
        name.isWithin other = true := by
  let around := disk.aliases.entries.filter fun e => l.isWithin e.1
  have hmem : ∀ e, e ∈ around ↔ disk.aliases.get? e.1 = some e.2 ∧ l.isWithin e.1 = true :=
    fun e => by rw [List.mem_filter, LocationMap.get?_eq_some_iff]
  -- they stand one in another, so the depth tells which is within which, and no two share it
  have hle : ∀ d ∈ around, ∀ e ∈ around, d.1.isWithin e.1 = true ↔ e.1.depth ≤ d.1.depth := by
    intro d hd e he
    obtain ⟨hdget, hld⟩ := (hmem d).mp hd
    obtain ⟨heget, hle⟩ := (hmem e).mp he
    exact (h.name _ _ hdget).isWithin_iff_depth_le (h.name _ _ heget) hl hld hle
  have hdepth : ∀ d ∈ around, ∀ e ∈ around, d.1.depth = e.1.depth → d = e := by
    intro d hd e he heq
    obtain ⟨hdget, -⟩ := (hmem d).mp hd
    obtain ⟨heget, -⟩ := (hmem e).mp he
    have hkey : d.1 = e.1 := (h.name _ _ hdget).eq_of_isWithin (h.name _ _ heget)
      ((hle d hd e he).mpr heq.ge) ((hle e he d hd).mpr heq.le)
    rw [hkey, heget] at hdget
    exact Prod.ext hkey (Option.some.inj hdget).symm
  unfold Governs LocationMap.deepest?
  rw [LocationMap.foldl_deeper_eq_some_iff hdepth, hmem, and_assoc]
  refine and_congr_right fun hget => and_congr_right fun hwithin => ?_
  have hself : (name, target) ∈ around := (hmem _).mpr ⟨hget, hwithin⟩
  constructor
  · intro hdeepest other beyond hother hlother
    have hin := (hmem (other, beyond)).mpr ⟨hother, hlother⟩
    exact (hle _ hself _ hin).mpr (hdeepest _ hin)
  · intro hinner e he
    obtain ⟨heget, hle'⟩ := (hmem e).mp he
    exact (hle _ hself _ he).mp (hinner e.1 e.2 heget hle')

/-- What lies within an alias leads to the same place below its target. -/
theorem Governs.resolve_descend (hg : disk.Governs (name.descend more) name target)
    (h : disk.HasProperAliases) (hmore : Location.LeadDown more) :
    disk.resolve (name.descend more) = .ok (target.descend more) := by
  have hget := (LocationMap.get?_of_deepest? hg).1
  have hname := h.name name target hget
  have htarget := h.target name target hget
  by_cases hne : more = []
  · -- the alias itself is replaced, nothing is joined to its target
    subst hne
    rw [hname.1.descend_nil] at hg ⊢
    rw [htarget.descend_nil]
    exact resolve_of_alias hg
  · have hother : name ≠ name.descend more := by
      intro heq
      have hsegments := congrArg Location.segments heq
      rw [hname.1.segments_descend hmore] at hsegments
      exact hne (List.self_eq_append_right.mp hsegments)
    rw [resolve_below hg hother hname.path_ne_root, hname.drop_chars_descend hne,
      htarget.join_joined hmore hne]

theorem Governs.exists_descend (hg : disk.Governs l name target) (h : disk.HasProperAliases)
    (hl : l.IsResolved) :
    ∃ more, Location.LeadDown more ∧ l = name.descend more ∧
      disk.resolve l = .ok (target.descend more) := by
  obtain ⟨hget, hwithin⟩ := LocationMap.get?_of_deepest? hg
  obtain ⟨more, hmore, rfl⟩ := ((h.name name target hget).isWithin_iff hl).mp hwithin
  exact ⟨more, hmore, rfl, hg.resolve_descend h hmore⟩

/-- No location is cut by such aliases. -/
theorem HasProperAliases.resolve_eq (h : disk.HasProperAliases) (l : Location) :
    disk.resolve l = .ok (disk.canonical l) := by
  refine (disk.resolve_cases l).resolve_right (not_splits ?_ l)
  refine Option.eq_none_iff_forall_ne_some.mpr fun target hroot => ?_
  exact (h.name _ _ hroot).path_ne_root rfl

theorem HasProperAliases.isResolved_canonical (h : disk.HasProperAliases) (hl : l.IsResolved) :
    (disk.canonical l).IsResolved := by
  by_cases hsome : ∃ name target, disk.Governs l name target
  · obtain ⟨name, target, hg⟩ := hsome
    obtain ⟨more, hmore, -, hresolve⟩ := hg.exists_descend h hl
    rw [Disk.canonical_eq hresolve]
    exact (h.target name target ((h.governs_iff hl).mp hg).1).descend hmore
  · push Not at hsome
    rwa [(isReal_of_not_governs hsome).canonical_eq]

/-! ## Real locations -/

/-- A location is real when the alias that counts there, if there is one, stands for itself. -/
theorem HasProperAliases.isReal_iff (h : disk.HasProperAliases) (hl : l.IsResolved) :
    disk.IsReal l ↔ ∀ name target, disk.Governs l name target → target = name := by
  constructor
  · -- the same place below the name and below the target is the same location
    intro hreal name target hg
    obtain ⟨hget, -⟩ := (h.governs_iff hl).mp hg
    obtain ⟨more, hmore, hbelow, hresolve⟩ := hg.exists_descend h hl
    refine (h.target name target hget).eq_of_descend_eq (h.name name target hget).1 hmore ?_
    rw [← hbelow]
    exact Except.ok.inj (hresolve.symm.trans hreal)
  · intro hself
    by_cases hsome : ∃ name target, disk.Governs l name target
    · obtain ⟨name, target, hg⟩ := hsome
      obtain ⟨more, -, hbelow, hresolve⟩ := hg.exists_descend h hl
      rw [hself name target hg, ← hbelow] at hresolve
      exact hresolve
    · push Not at hsome
      exact isReal_of_not_governs hsome

/-- Where an alias may lead to something that is not real: at the alias, and at the place that
leads to another alias. -/
def probes (disk : Disk) : List Location :=
  disk.aliases.entries.flatMap fun (name, target) =>
    name :: disk.aliases.keys.filterMap fun other => (target.pathDown? other).map name.descend

theorem HasProperAliases.mem_probes_iff (h : disk.HasProperAliases) :
    l ∈ disk.probes ↔ ∃ name target, disk.aliases.get? name = some target ∧
      (l = name ∨ ∃ more, Location.LeadDown more ∧ l = name.descend more ∧
        (disk.aliases.get? (target.descend more)).isSome = true) := by
  unfold probes
  rw [List.mem_flatMap]
  constructor
  · rintro ⟨⟨name, target⟩, hentry, hl⟩
    have hget := LocationMap.get?_eq_some_iff.mpr hentry
    refine ⟨name, target, hget, (List.mem_cons.mp hl).imp id fun hl => ?_⟩
    obtain ⟨other, hother, hpath⟩ := List.mem_filterMap.mp hl
    obtain ⟨more, hmore, rfl⟩ := Option.map_eq_some_iff.mp hpath
    obtain ⟨beyond, hbeyond⟩ := LocationMap.mem_keys_iff.mp hother
    obtain ⟨hdown, rfl⟩ := ((h.target name target hget).pathDown?_eq_some_iff
      (h.name other beyond hbeyond).1).mp hmore
    exact ⟨more, hdown, rfl, Option.isSome_of_eq_some hbeyond⟩
  · rintro ⟨name, target, hget, hl⟩
    refine ⟨(name, target), LocationMap.get?_eq_some_iff.mp hget, List.mem_cons.mpr ?_⟩
    refine hl.imp id ?_
    rintro ⟨more, hmore, rfl, hother⟩
    obtain ⟨beyond, hbeyond⟩ := Option.isSome_iff_exists.mp hother
    have hpath := ((h.target name target hget).pathDown?_eq_some_iff
      (h.name _ beyond hbeyond).1).mpr ⟨hmore, rfl⟩
    refine List.mem_filterMap.mpr
      ⟨target.descend more, LocationMap.mem_keys_iff.mpr ⟨beyond, hbeyond⟩, ?_⟩
    rw [hpath]
    rfl

theorem HasProperAliases.isResolved_of_mem_probes (h : disk.HasProperAliases)
    (hl : l ∈ disk.probes) : l.IsResolved := by
  obtain ⟨name, target, hget, rfl | ⟨more, hmore, rfl, -⟩⟩ := h.mem_probes_iff.mp hl
  · exact (h.name _ _ hget).1
  · exact (h.name name target hget).1.descend hmore

/-- The alias that counts at a location counts between the two as well. -/
theorem Governs.between (hg : disk.Governs l name target) (h : disk.HasProperAliases)
    (hl : l.IsResolved) (hother : other.IsResolved) (hwithin : l.isWithin other = true)
    (hin : other.isWithin name = true) : disk.Governs other name target := by
  obtain ⟨hget, -, hinner⟩ := (h.governs_iff hl).mp hg
  exact (h.governs_iff hother).mpr ⟨hget, hin, fun beyond t hbeyond hbetween =>
    hinner beyond t hbeyond (Location.isWithin_trans hwithin hbetween)⟩

/-- What lies between an alias and a location where it counts leads to the same place below the
target. -/
theorem Governs.canonical_between {segments : List (List Char)}
    (hg : disk.Governs (name.descend segments) name target) (h : disk.HasProperAliases)
    (hmore : Location.LeadDown segments) (hstarts : more <+: segments) :
    disk.canonical (name.descend more) = target.descend more := by
  obtain ⟨rest, rfl⟩ := hstarts
  have hname := h.name name target (LocationMap.get?_of_deepest? hg).1
  obtain ⟨hfront, hrest⟩ := hmore.of_append
  have hproper := hname.descend hfront
  have hin : disk.Governs (name.descend more) name target := by
    refine hg.between h (hname.1.descend hmore) hproper.1 ?_ (hname.isWithin_descend hfront)
    rw [hname.1.descend_append hfront]
    exact hproper.isWithin_descend hrest
  exact Disk.canonical_eq (hin.resolve_descend h hfront)

/-- Every location leads to a real one when the probes do. -/
theorem HasProperAliases.isReal_canonical_all_iff (h : disk.HasProperAliases) :
    (∀ l, l.IsResolved → disk.IsReal (disk.canonical l)) ↔
      ∀ l ∈ disk.probes, disk.IsReal (disk.canonical l) := by
  refine ⟨fun hall l hl => hall l (h.isResolved_of_mem_probes hl), fun hprobes l hl => ?_⟩
  by_cases hsome : ∃ name target, disk.Governs l name target
  swap
  · push Not at hsome
    have hreal := isReal_of_not_governs hsome
    rwa [hreal.canonical_eq]
  obtain ⟨name, target, hg⟩ := hsome
  have hget := (LocationMap.get?_of_deepest? hg).1
  have hname := h.name name target hget
  have htarget := h.target name target hget
  obtain ⟨more, hmore, rfl, hresolve⟩ := hg.exists_descend h hl
  have hreached := htarget.descend hmore
  rw [Disk.canonical_eq hresolve, h.isReal_iff hreached]
  -- the alias that counts there counts where a probe leads, too
  intro other beyond hother
  obtain ⟨hget', hwithin⟩ := LocationMap.get?_of_deepest? hother
  have hproper := h.name other beyond hget'
  obtain ⟨rest, hrest, heq⟩ := (hproper.isWithin_iff hreached).mp hwithin
  rcases htarget.descend_eq_descend hproper.1 hmore hrest heq with
    ⟨between, hbetween, rfl, rfl⟩ | ⟨between, hbetween, rfl, rfl⟩
  · -- it is below the target, and a place below the name leads to it
    have hreal := hprobes (name.descend between) (h.mem_probes_iff.mpr ⟨name, target, hget, .inr
      ⟨between, hbetween, rfl, Option.isSome_of_eq_some hget'⟩⟩)
    rw [hg.canonical_between h hmore (List.prefix_append _ _)] at hreal
    refine (h.isReal_iff hproper.1).mp hreal _ beyond ?_
    exact hother.between h hreached hproper.1 hwithin (Location.isWithin_refl _)
  · -- it is around the target, which the name leads to
    have hreal := hprobes name (h.mem_probes_iff.mpr ⟨name, _, hget, .inl rfl⟩)
    have hlead := hg.canonical_between h hmore List.nil_prefix
    rw [hname.1.descend_nil, htarget.descend_nil] at hlead
    rw [hlead] at hreal
    refine (h.isReal_iff htarget).mp hreal other beyond ?_
    exact hother.between h hreached htarget ((hproper.descend hbetween).isWithin_descend hmore)
      (hproper.isWithin_descend hbetween)

end Disk

/-! ## What a disk is asked -/

/-- The same error about another location. -/
def DiskError.about (l : Location) : DiskError → DiskError
  | .missing _ => .missing l
  | .unreadable _ reason => .unreadable l reason

namespace Disk

variable {disk : Disk} {l other real : Location}

/-- All that a disk can be asked has the same answer at two locations; when a file cannot be read,
the error names the location that was asked for. -/
structure AnswersAlike (disk : Disk) (l other : Location) : Prop where
  read : disk.read l = (disk.read other).map (Except.mapError (DiskError.about l))
  isDirectory : disk.isDirectory l = disk.isDirectory other
  doesExist : disk.doesExist l = disk.doesExist other
  walk : disk.walk l = disk.walk other

theorem textAt_eq_mapError (disk : Disk) (l other place : Location) :
    disk.textAt l place = (disk.textAt other place).mapError (DiskError.about l) := by
  unfold textAt
  cases disk.files.get? place with
  | none => rfl
  | some text => cases disk.unreadable.get? place <;> rfl

theorem answersAlike_of_resolve_eq (h : disk.resolve l = disk.resolve other) :
    disk.AnswersAlike l other where
  read := by
    unfold Disk.read
    rw [h]
    cases disk.resolve other with
    | error failure => rfl
    | ok place => exact congrArg Except.ok (disk.textAt_eq_mapError l other place)
  isDirectory := by
    unfold Disk.isDirectory
    rw [h]
  doesExist := by
    unfold Disk.doesExist
    rw [h]
  walk := by
    unfold Disk.walk
    rw [h]

/-- With whatever files there are, the disk answers alike at a location and at what it leads to,
just when this is real. -/
theorem isReal_iff_answersAlike (hl : disk.resolve l = .ok real) :
    disk.IsReal real ↔ ∀ files, AnswersAlike { disk with files := files } l real := by
  constructor
  · exact fun hreal files => answersAlike_of_resolve_eq (hl.trans hreal.symm)
  · intro hanswers
    -- the file that is only where the location leads has to be found from there
    have hread := (hanswers (LocationMap.insert LocationMap.empty real "")).read
    unfold Disk.read at hread
    change (disk.resolve l).map _ = ((disk.resolve real).map _).map _ at hread
    rw [hl] at hread
    unfold IsReal
    cases hplace : disk.resolve real with
    | error failure =>
        rw [hplace] at hread
        cases hread
    | ok place =>
        rw [hplace] at hread
        have htext := Except.ok.inj hread
        by_contra hnot
        have hmissing : (LocationMap.insert LocationMap.empty real "").get? place = none :=
          LocationMap.get?_insert_of_ne _ _ fun heq => hnot (congrArg Except.ok heq)
        unfold textAt at htext
        dsimp only at htext
        rw [LocationMap.get?_insert_self, hmissing] at htext
        cases hreason : disk.unreadable.get? real with
        | none =>
            rw [hreason] at htext
            cases htext
        | some reason =>
            rw [hreason] at htext
            cases htext

end Disk
end ModelWorkspace
