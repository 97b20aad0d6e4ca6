import ModelWorkspace.Proofs.Text.Location

/-!
# The tree of locations

A location that a path leads to is the spelling of a list of segments, given from the root on or
not (`ofSegments`), with nothing left to resolve (`AreResolved`).  Such a spelling is read back
segment by segment, so no two lists of segments share one.  Going up to the directory takes the
last segment away (`parent_ofSegments`), and to lie below a directory is to have its segments and
more behind them (`isBelow_ofSegments`).

The empty location is the one exception to this.  It has no segments, and no location has it as
its directory, but of all locations just those that are given from the root on pass for lying
below it (`isBelow_of_path_eq_empty`).
-/

namespace ModelWorkspace
namespace Location

variable {absolute : Bool} {s : List Char} {xs ys : List (List Char)} {a b c : Location}

/-- Whether the location is given from the root on. -/
def isAbsolute (l : Location) : Bool :=
  l.chars.head? == some '/'

/-- The segments, first one first. -/
def segments (l : Location) : List (List Char) :=
  (l.chars.splitOn '/').filter (· ≠ [])

/-- The location with some segments, given from the root on or not. -/
def ofSegments (absolute : Bool) (segments : List (List Char)) : Location :=
  let joined := ['/'].intercalate segments
  ⟨String.ofList (if absolute then '/' :: joined else joined)⟩

/-- Segments that can be told apart when they are written with separators between them. -/
def AreSeparable (segments : List (List Char)) : Prop :=
  ∀ s ∈ segments, s ≠ [] ∧ '/' ∉ s

/-- Segments with nothing left to resolve: none is `.`, only `..` stands in front of `..`, and
from the root nothing leads up. -/
structure AreResolved (absolute : Bool) (segments : List (List Char)) : Prop where
  separable : AreSeparable segments
  not_dot : ['.'] ∉ segments
  leading : segments.Pairwise fun s t => t = ['.', '.'] → s = ['.', '.']
  relative : ['.', '.'] ∈ segments → absolute = false

/-- The normal form of locations: one separator between two segments, in front of them one if the
location is given from the root on, and none behind them. -/
structure IsNormal (l : Location) : Prop where
  spelled : l = ofSegments l.isAbsolute l.segments
  resolved : AreResolved l.isAbsolute l.segments
  not_trailing : l.chars.getLast? = some '/' → l.path = "/"

theorem depth_eq (l : Location) : l.depth = l.segments.length :=
  List.countP_eq_length_filter

/-! ## Segments in a row -/

theorem AreSeparable.of_append (h : AreSeparable (xs ++ ys)) :
    AreSeparable xs ∧ AreSeparable ys :=
  List.forall_mem_append.mp h

theorem splitOn_append_cons (cs ds : List Char) :
    (cs ++ '/' :: ds).splitOn '/' = cs.splitOn '/' ++ ds.splitOn '/' := by
  rw [List.splitOn_eq_splitOnP, List.splitOn_eq_splitOnP, List.splitOn_eq_splitOnP]
  exact List.splitOnP_append_cons cs ds (beq_self_eq_true '/')

theorem splitOn_joined (h : AreSeparable xs) (hne : xs ≠ []) :
    (['/'].intercalate xs).splitOn '/' = xs :=
  List.splitOn_intercalate '/' (fun s hs => (h s hs).2) hne

theorem joined_append (hxs : xs ≠ []) (hys : ys ≠ []) :
    ['/'].intercalate (xs ++ ys) = ['/'].intercalate xs ++ '/' :: ['/'].intercalate ys := by
  obtain ⟨y, ys, rfl⟩ := List.exists_cons_of_ne_nil hys
  induction xs with
  | nil => exact absurd rfl hxs
  | cons x xs ih =>
      cases xs with
      | nil =>
          rw [List.singleton_append, List.intercalate_cons_cons, List.intercalate_singleton,
            List.append_assoc, List.singleton_append]
      | cons x' xs =>
          rw [List.cons_append, List.cons_append, List.intercalate_cons_cons, ← List.cons_append,
            ih (List.cons_ne_nil _ _), List.intercalate_cons_cons, List.append_assoc,
            List.append_assoc, List.append_assoc]

theorem joined_eq_nil_iff (h : AreSeparable xs) : ['/'].intercalate xs = [] ↔ xs = [] := by
  constructor
  · intro hnil
    by_contra hne
    have hsplit := splitOn_joined h hne
    rw [hnil, List.splitOn_nil] at hsplit
    exact (h [] (hsplit ▸ List.mem_singleton_self [])).1 rfl
  · rintro rfl
    rfl

/-- A joined list of segments and a separator start another one when the other list has the
same segments and more. -/
theorem joined_isPrefix_iff (hxs : AreSeparable xs) (hys : AreSeparable ys) (hne : ys ≠ []) :
    ['/'].intercalate ys ++ ['/'] <+: ['/'].intercalate xs ↔ ys <+: xs ∧ ys ≠ xs := by
  constructor
  · rintro ⟨rest, hrest⟩
    rw [List.append_assoc, List.singleton_append] at hrest
    have hxne : xs ≠ [] := by
      rintro rfl
      exact List.append_ne_nil_of_right_ne_nil _ (List.cons_ne_nil _ _) hrest
    have hsplit := splitOn_append_cons (['/'].intercalate ys) rest
    rw [hrest, splitOn_joined hxs hxne, splitOn_joined hys hne] at hsplit
    refine ⟨⟨rest.splitOn '/', hsplit.symm⟩, fun heq => ?_⟩
    rw [heq] at hsplit
    exact List.splitOn_ne_nil '/' rest (List.self_eq_append_right.mp hsplit)
  · rintro ⟨⟨more, rfl⟩, hmore⟩
    have hmore : more ≠ [] := fun hnil => hmore (by rw [hnil, List.append_nil])
    rw [joined_append hne hmore]
    exact ⟨['/'].intercalate more, by rw [List.append_assoc, List.singleton_append]⟩

/-! ## Spellings -/

theorem chars_ofSegments (absolute : Bool) (xs : List (List Char)) :
    (ofSegments absolute xs).chars =
      if absolute then '/' :: ['/'].intercalate xs else ['/'].intercalate xs := by
  unfold ofSegments chars
  dsimp only
  rw [String.toList_ofList]

theorem ofSegments_root : ofSegments true [] = ⟨"/"⟩ := rfl

theorem isAbsolute_ofSegments (h : AreSeparable xs) :
    (ofSegments absolute xs).isAbsolute = absolute := by
  unfold isAbsolute
  rw [chars_ofSegments]
  cases absolute with
  | true => rfl
  | false => exact beq_eq_false_iff_ne.mpr (head?_intercalate h)

theorem segments_ofSegments (h : AreSeparable xs) : (ofSegments absolute xs).segments = xs := by
  have hjoined : ((['/'].intercalate xs).splitOn '/').filter (· ≠ []) = xs := by
    by_cases hne : xs = []
    · rw [hne]
      rfl
    · rw [splitOn_joined h hne]
      exact List.filter_eq_self.mpr fun s hs => decide_eq_true (h s hs).1
  unfold segments
  rw [chars_ofSegments]
  cases absolute with
  | true =>
      rw [if_pos rfl, ← List.nil_append ('/' :: _), splitOn_append_cons, List.filter_append, hjoined]
      rfl
  | false => exact hjoined

/-- Different segments are spelled differently. -/
theorem ofSegments_inj {other : Bool} (hxs : AreSeparable xs) (hys : AreSeparable ys) :
    ofSegments absolute xs = ofSegments other ys ↔ absolute = other ∧ xs = ys := by
  constructor
  · intro heq
    have habsolute := congrArg isAbsolute heq
    have hsegments := congrArg segments heq
    rw [isAbsolute_ofSegments hxs, isAbsolute_ofSegments hys] at habsolute
    rw [segments_ofSegments hxs, segments_ofSegments hys] at hsegments
    exact ⟨habsolute, hsegments⟩
  · rintro ⟨rfl, rfl⟩
    rfl

theorem path_eq_empty_iff (l : Location) : l.path = "" ↔ l.chars = [] :=
  String.toList_eq_nil_iff.symm

theorem path_ofSegments_eq_empty_iff (h : AreSeparable xs) :
    (ofSegments absolute xs).path = "" ↔ absolute = false ∧ xs = [] := by
  rw [path_eq_empty_iff, chars_ofSegments, ← joined_eq_nil_iff h]
  cases absolute with
  | true => simp
  | false => simp

theorem path_ofSegments_eq_root_iff (h : AreSeparable xs) :
    (ofSegments absolute xs).path = "/" ↔ absolute = true ∧ xs = [] := by
  have hnil : AreSeparable [] := fun _ hs => absurd hs List.not_mem_nil
  rw [← ofSegments_inj h hnil, ofSegments_root]
  exact ⟨ext_path, congrArg path⟩

/-! ## What paths lead to -/

theorem AreResolved.of_append (h : AreResolved absolute (xs ++ ys)) : AreResolved absolute xs where
  separable := h.separable.of_append.1
  not_dot := fun hmem => h.not_dot (List.mem_append_left ys hmem)
  leading := (List.pairwise_append.mp h.leading).1
  relative := fun hmem => h.relative (List.mem_append_left ys hmem)

theorem AreResolved.concat (h : AreResolved absolute xs) (hplain : s ≠ [] ∧ s ≠ ['.'] ∧ '/' ∉ s)
    (hup : s = ['.', '.'] → absolute = false ∧ ∀ t ∈ xs, t = ['.', '.']) :
    AreResolved absolute (xs ++ [s]) where
  separable := List.forall_mem_append.mpr
    ⟨h.separable, List.forall_mem_singleton.mpr ⟨hplain.1, hplain.2.2⟩⟩
  not_dot := by
    rw [List.mem_append, List.mem_singleton, not_or]
    exact ⟨h.not_dot, Ne.symm hplain.2.1⟩
  leading := by
    refine List.pairwise_append.mpr ⟨h.leading, List.pairwise_singleton _ s, ?_⟩
    intro t ht u hu hdots
    rw [List.mem_singleton.mp hu] at hdots
    exact (hup hdots).2 t ht
  relative := by
    rw [List.mem_append, List.mem_singleton]
    rintro (hmem | hdots)
    · exact h.relative hmem
    · exact (hup hdots.symm).1

/-- One step of resolving a path leaves nothing to resolve. -/
theorem AreResolved.addSegment {kept : List (List Char)} (h : AreResolved absolute kept.reverse)
    (hs : '/' ∉ s) : AreResolved absolute (addSegment absolute kept s).reverse := by
  unfold Location.addSegment
  split
  · exact h
  rename_i hplain
  rw [not_or] at hplain
  split
  · rename_i hup
    subst hup
    split
    · rename_i last rest
      rw [List.reverse_cons] at h
      split
      · exact h.of_append
      rename_i hlast
      rw [not_not] at hlast
      split
      · rw [List.reverse_cons]
        exact h
      rename_i habsolute
      rw [List.reverse_cons, List.reverse_cons]
      refine h.concat ⟨by decide, by decide, by decide⟩ fun _ => ⟨by simpa using habsolute, ?_⟩
      -- the last segment leads up, so all in front of it do
      refine List.forall_mem_append.mpr ⟨fun t ht => ?_, List.forall_mem_singleton.mpr hlast⟩
      exact (List.pairwise_append.mp h.leading).2.2 t ht last (List.mem_singleton_self last) hlast
    · split
      · exact h
      rename_i habsolute
      exact h.concat ⟨by decide, by decide, by decide⟩ fun _ =>
        ⟨by simpa using habsolute, fun t ht => absurd ht List.not_mem_nil⟩
  · rename_i hup
    rw [List.reverse_cons]
    exact h.concat ⟨hplain.1, hplain.2, hs⟩ fun hdots => absurd hdots hup

theorem areResolved_nil (absolute : Bool) : AreResolved absolute [] where
  separable := fun _ hs => absurd hs List.not_mem_nil
  not_dot := List.not_mem_nil
  leading := List.Pairwise.nil
  relative := fun hmem => absurd hmem List.not_mem_nil

theorem areResolved_resolveSegments (absolute : Bool) {pieces : List (List Char)}
    (hpieces : ∀ s ∈ pieces, '/' ∉ s) : AreResolved absolute (resolveSegments absolute pieces) := by
  have hfold : ∀ kept, AreResolved absolute kept.reverse →
      AreResolved absolute (pieces.foldl (addSegment absolute) kept).reverse := by
    induction pieces with
    | nil => exact fun kept hkept => hkept
    | cons s pieces ih =>
        obtain ⟨hs, hrest⟩ := List.forall_mem_cons.mp hpieces
        exact fun kept hkept => ih hrest _ (hkept.addSegment hs)
  exact hfold [] (areResolved_nil absolute)

/-- A resolved location is the spelling of its segments. -/
theorem IsResolved.exists_segments (h : a.IsResolved) :
    ∃ absolute xs, AreResolved absolute xs ∧ a = ofSegments absolute xs := by
  obtain ⟨path, rfl⟩ := h
  exact ⟨path.head? == some '/', _,
    areResolved_resolveSegments _ fun _ hmem => notMem_of_mem_splitOn hmem, rfl⟩

/-- Segments with nothing left to resolve stay as they are. -/
theorem foldl_addSegment (kept : List (List Char)) (h : AreResolved absolute (kept.reverse ++ xs)) :
    xs.foldl (addSegment absolute) kept = xs.reverse ++ kept := by
  induction xs generalizing kept with
  | nil => rfl
  | cons s xs ih =>
      have hmem : s ∈ kept.reverse ++ s :: xs := List.mem_append_right _ List.mem_cons_self
      have hstep : addSegment absolute kept s = s :: kept := by
        unfold addSegment
        have hplain : ¬ (s = [] ∨ s = ['.']) := by
          rw [not_or]
          exact ⟨(h.separable s hmem).1, fun hdot => h.not_dot (hdot ▸ hmem)⟩
        rw [if_neg hplain]
        split
        · rename_i hup
          have habsolute := h.relative (hup ▸ hmem)
          split
          · rename_i last rest
            have hlast : last = ['.', '.'] :=
              (List.pairwise_append.mp h.leading).2.2 last (by simp) s List.mem_cons_self hup
            rw [if_neg (not_not.mpr hlast), habsolute]
            rfl
          · rw [habsolute, hup]
            rfl
        · rfl
      rw [List.foldl_cons, hstep, ih (s :: kept), List.reverse_cons, List.append_assoc,
        List.singleton_append]
      rwa [List.reverse_cons, List.append_assoc, List.singleton_append]

/-- Empty pieces leave what is kept as it is. -/
theorem foldl_addSegment_filter (absolute : Bool) (kept pieces : List (List Char)) :
    (pieces.filter (· ≠ [])).foldl (addSegment absolute) kept =
      pieces.foldl (addSegment absolute) kept := by
  induction pieces generalizing kept with
  | nil => rfl
  | cons s pieces ih =>
      by_cases hs : s = []
      · subst hs
        exact ih kept
      · rw [List.filter_cons_of_pos (by simpa using hs)]
        exact ih _

theorem resolveSegments_eq_filter {pieces : List (List Char)}
    (h : AreResolved absolute (pieces.filter (· ≠ []))) :
    resolveSegments absolute pieces = pieces.filter (· ≠ []) := by
  unfold resolveSegments
  rw [← foldl_addSegment_filter, foldl_addSegment [] h, List.append_nil, List.reverse_reverse]

/-- The spelling of resolved segments is resolved, and leads to itself. -/
theorem resolve_chars_ofSegments (h : AreResolved absolute xs) :
    resolve (ofSegments absolute xs).chars = ofSegments absolute xs := by
  have hpieces : ((ofSegments absolute xs).chars.splitOn '/').filter (· ≠ []) = xs :=
    segments_ofSegments h.separable
  have hsegments : resolveSegments absolute ((ofSegments absolute xs).chars.splitOn '/') = xs := by
    rw [resolveSegments_eq_filter (hpieces.symm ▸ h), hpieces]
  have habsolute : ((ofSegments absolute xs).chars.head? == some '/') = absolute :=
    isAbsolute_ofSegments h.separable
  unfold resolve
  dsimp only
  rw [habsolute, hsegments]
  rfl

theorem isResolved_ofSegments (h : AreResolved absolute xs) :
    (ofSegments absolute xs).IsResolved :=
  ⟨_, (resolve_chars_ofSegments h).symm⟩

theorem getLast?_joined (h : AreSeparable xs) : (['/'].intercalate xs).getLast? ≠ some '/' := by
  rcases List.eq_nil_or_concat xs with rfl | ⟨front, s, rfl⟩
  · exact fun hnone => nomatch hnone
  · rw [List.concat_eq_append] at h ⊢
    obtain ⟨hne, hnot⟩ := h s (by simp)
    have hlast : (['/'].intercalate (front ++ [s])).getLast? = s.getLast? := by
      by_cases hfront : front = []
      · rw [hfront, List.nil_append, List.intercalate_singleton]
      · rw [joined_append hfront (List.cons_ne_nil s []), List.intercalate_singleton,
          List.getLast?_append_cons, List.getLast?_cons_of_ne_nil hne]
    rw [hlast]
    exact fun heq => hnot (List.mem_of_getLast? heq)

theorem isNormal_ofSegments (h : AreResolved absolute xs) : (ofSegments absolute xs).IsNormal where
  spelled := by rw [isAbsolute_ofSegments h.separable, segments_ofSegments h.separable]
  resolved := by rwa [isAbsolute_ofSegments h.separable, segments_ofSegments h.separable]
  not_trailing := by
    rw [path_ofSegments_eq_root_iff h.separable, chars_ofSegments]
    cases absolute with
    | true =>
        rw [if_pos rfl]
        intro hlast
        refine ⟨rfl, (joined_eq_nil_iff h.separable).mp ?_⟩
        by_contra hne
        rw [List.getLast?_cons_of_ne_nil hne] at hlast
        exact getLast?_joined h.separable hlast
    | false => exact fun hlast => absurd hlast (getLast?_joined h.separable)

theorem IsResolved.isNormal (h : a.IsResolved) : a.IsNormal := by
  obtain ⟨absolute, xs, hxs, rfl⟩ := h.exists_segments
  exact isNormal_ofSegments hxs

theorem isAbsolute_of_isPrefix {cs : List Char} (h : '/' :: cs <+: a.chars) :
    a.isAbsolute = true := by
  unfold isAbsolute
  rw [head?_of_starts h]
  rfl

/-! ## The tree order -/

/-- Just the locations that are given from the root on pass for lying below the empty one. -/
theorem isBelow_of_path_eq_empty (h : b.path = "") :
    a.isBelow b = true ↔ a.isAbsolute = true := by
  have hroot : b.path ≠ "/" := by
    rw [h]
    decide
  have hchars : b.chars = [] := (path_eq_empty_iff b).mp h
  rw [Location.isBelow_iff, hchars, List.nil_append]
  constructor
  · rintro (⟨hpath, -⟩ | ⟨-, hstarts⟩)
    · exact absurd hpath hroot
    · exact isAbsolute_of_isPrefix hstarts
  · intro habsolute
    have hhead : a.chars.head? = some '/' := beq_iff_eq.mp habsolute
    obtain ⟨rest, hrest⟩ := List.head?_eq_some_iff.mp hhead
    exact .inr ⟨hroot, rest, hrest.symm⟩

/-- All but the root lies below it. -/
theorem isBelow_root (h : AreSeparable xs) :
    (ofSegments absolute xs).isBelow (ofSegments true []) = true ↔
      absolute = true ∧ [] <+: xs ∧ [] ≠ xs := by
  have hhead : (ofSegments absolute xs).chars.head? = some '/' ↔ absolute = true := by
    have hiff : (ofSegments absolute xs).isAbsolute = true ↔
        (ofSegments absolute xs).chars.head? = some '/' := beq_iff_eq
    rw [← hiff, isAbsolute_ofSegments h]
  have hlength : absolute = true → (1 < (ofSegments absolute xs).chars.length ↔ [] ≠ xs) := by
    rintro rfl
    rw [chars_ofSegments, if_pos rfl, List.length_cons, Nat.lt_add_left_iff_pos,
      List.length_pos_iff, ne_eq, joined_eq_nil_iff h]
    exact ne_comm
  rw [Location.isBelow_iff, ofSegments_root, hhead]
  constructor
  · rintro (⟨-, hlong, habsolute⟩ | ⟨hpath, -⟩)
    · exact ⟨habsolute, List.nil_prefix, (hlength habsolute).mp hlong⟩
    · exact absurd rfl hpath
  · rintro ⟨habsolute, -, hne⟩
    exact .inl ⟨rfl, (hlength habsolute).mpr hne, habsolute⟩

/-- To lie below a location, other than the empty one, is to have its segments and more behind
them. -/
theorem isBelow_ofSegments {other : Bool} (hxs : AreSeparable xs) (hys : AreSeparable ys)
    (hne : (ofSegments other ys).path ≠ "") :
    (ofSegments absolute xs).isBelow (ofSegments other ys) = true ↔
      absolute = other ∧ ys <+: xs ∧ ys ≠ xs := by
  by_cases hroot : (ofSegments other ys).path = "/"
  · obtain ⟨rfl, rfl⟩ := (path_ofSegments_eq_root_iff hys).mp hroot
    exact isBelow_root hxs
  have hys_ne : ys ≠ [] := by
    rintro rfl
    cases other with
    | true => exact hroot rfl
    | false => exact hne rfl
  have hiff : (ofSegments absolute xs).isBelow (ofSegments other ys) = true ↔
      (ofSegments other ys).chars ++ ['/'] <+: (ofSegments absolute xs).chars := by
    rw [Location.isBelow_iff]
    exact ⟨fun h => (h.resolve_left fun hleft => hroot hleft.1).2, fun h => .inr ⟨hroot, h⟩⟩
  rw [hiff, chars_ofSegments, chars_ofSegments]
  cases other with
  | true =>
      cases absolute with
      | true =>
          rw [if_pos rfl, if_pos rfl, List.cons_append, List.prefix_cons_inj,
            joined_isPrefix_iff hxs hys hys_ne, eq_self_iff_true, true_and]
      | false =>
          refine iff_of_false (fun hstarts => ?_) fun h => Bool.false_ne_true h.1
          exact head?_intercalate hxs (head?_of_starts hstarts)
  | false =>
      cases absolute with
      | true =>
          refine iff_of_false (fun hstarts => ?_) fun h => Bool.false_ne_true h.1.symm
          -- the first character would be a separator
          obtain ⟨first, rest, hjoined⟩ :=
            List.exists_cons_of_ne_nil (mt (joined_eq_nil_iff hys).mp hys_ne)
          rw [if_neg Bool.false_ne_true, if_pos rfl, hjoined, List.cons_append,
            List.cons_prefix_cons] at hstarts
          apply head?_intercalate hys
          rw [hjoined, hstarts.1]
          rfl
      | false =>
          rw [if_neg Bool.false_ne_true, if_neg Bool.false_ne_true,
            joined_isPrefix_iff hxs hys hys_ne, eq_self_iff_true, true_and]

theorem IsResolved.isBelow_iff (ha : a.IsResolved) (hb : b.IsResolved) (hne : b.path ≠ "") :
    a.isBelow b = true ↔
      a.isAbsolute = b.isAbsolute ∧ b.segments <+: a.segments ∧ b.segments ≠ a.segments := by
  obtain ⟨absolute, xs, hxs, rfl⟩ := ha.exists_segments
  obtain ⟨other, ys, hys, rfl⟩ := hb.exists_segments
  rw [isBelow_ofSegments hxs.separable hys.separable hne, isAbsolute_ofSegments hxs.separable,
    isAbsolute_ofSegments hys.separable, segments_ofSegments hxs.separable,
    segments_ofSegments hys.separable]

theorem isBelow_irrefl (l : Location) : l.isBelow l = false := by
  refine Bool.eq_false_iff.mpr fun h => ?_
  rcases (Location.isBelow_iff l l).mp h with ⟨hroot, hlength, -⟩ | ⟨-, hstarts⟩
  · rw [chars_of_isRoot hroot] at hlength
    exact Nat.lt_irrefl 1 hlength
  · have hlength := hstarts.length_le
    rw [List.length_append, List.length_singleton] at hlength
    exact Nat.not_succ_le_self _ hlength

/-! ## Directories -/

theorem dropWhile_reverse_append_cons (cs : List Char) (hs : '/' ∉ s) :
    (cs ++ '/' :: s).reverse.dropWhile (· ≠ '/') = '/' :: cs.reverse := by
  rw [List.reverse_append, List.reverse_cons, List.append_assoc, List.singleton_append,
    List.dropWhile_append_of_pos]
  · rfl
  · intro c hc
    rw [List.mem_reverse] at hc
    exact decide_eq_true fun heq => hs (heq ▸ hc)

/-- What stands in front of the last separator is the directory. -/
theorem parent_of_chars {l : Location} {cs : List Char} (h : l.chars = cs ++ '/' :: s)
    (hs : s ≠ [] ∧ '/' ∉ s) : l.parent = some (if cs = [] then ⟨"/"⟩ else ⟨String.ofList cs⟩) := by
  unfold parent
  rw [h, dropWhile_reverse_append_cons cs hs.2]
  by_cases hcs : cs = []
  · subst hcs
    have hlength : 1 < ([] ++ '/' :: s).length := by
      rw [List.nil_append, List.length_cons]
      exact Nat.lt_add_of_pos_left (List.length_pos_iff.mpr hs.1)
    rw [if_pos rfl]
    exact if_pos hlength
  · obtain ⟨last, front, hfront⟩ := List.exists_cons_of_ne_nil (mt List.reverse_eq_nil_iff.mp hcs)
    rw [if_neg hcs, hfront]
    show some (⟨String.ofList (last :: front).reverse⟩ : Location) = _
    rw [← hfront, List.reverse_reverse]

/-- Going up to the directory takes the last segment away.  No location has the empty one as its
directory. -/
theorem parent_ofSegments (h : AreSeparable (xs ++ [s])) :
    (ofSegments absolute (xs ++ [s])).parent =
      if (ofSegments absolute xs).path = "" then none else some (ofSegments absolute xs) := by
  obtain ⟨hxs, hlast⟩ := h.of_append
  have hs := List.forall_mem_singleton.mp hlast
  have hempty : (ofSegments absolute xs).path = "" ↔ _ := path_ofSegments_eq_empty_iff hxs
  by_cases hnil : xs = []
  · subst hnil
    cases absolute with
    | true =>
        have hchars : (ofSegments true ([] ++ [s])).chars = [] ++ '/' :: s := by
          rw [chars_ofSegments]
          simp
        rw [parent_of_chars hchars hs]
        rfl
    | false =>
        rw [if_pos (hempty.mpr ⟨rfl, rfl⟩)]
        unfold parent
        have hchars : (ofSegments false ([] ++ [s])).chars = s := by
          rw [chars_ofSegments]
          simp
        have hdrop : s.reverse.dropWhile (· ≠ '/') = [] := by
          refine List.dropWhile_eq_nil_iff.mpr fun c hc => ?_
          exact decide_eq_true fun heq => hs.2 (heq ▸ List.mem_reverse.mp hc)
        rw [hchars, hdrop]
  · rw [if_neg fun h => hnil (hempty.mp h).2]
    have hchars : (ofSegments absolute (xs ++ [s])).chars =
        (ofSegments absolute xs).chars ++ '/' :: s := by
      rw [chars_ofSegments, chars_ofSegments, joined_append hnil (List.cons_ne_nil s []),
        List.intercalate_singleton]
      cases absolute with
      | true => rfl
      | false => rfl
    have hne : (ofSegments absolute xs).chars ≠ [] := by
      rw [ne_eq, ← path_eq_empty_iff, hempty]
      exact fun h => hnil h.2
    rw [parent_of_chars hchars hs, if_neg hne]
    exact congrArg some (ext_path (String.ofList_toList))

/-- The directory of a resolved location, segment by segment. -/
theorem IsResolved.exists_of_parent (ha : a.IsResolved) (h : a.parent = some b) :
    ∃ absolute xs s, AreResolved absolute (xs ++ [s]) ∧ a = ofSegments absolute (xs ++ [s]) ∧
      b = ofSegments absolute xs ∧ b.path ≠ "" := by
  obtain ⟨absolute, ys, hys, rfl⟩ := ha.exists_segments
  rcases List.eq_nil_or_concat ys with rfl | ⟨xs, s, hconcat⟩
  · cases absolute with
    | true => exact nomatch h
    | false => exact nomatch h
  · rw [List.concat_eq_append] at hconcat
    subst hconcat
    rw [parent_ofSegments hys.separable] at h
    split at h
    · cases h
    · rename_i hne
      obtain rfl := Option.some.inj h
      exact ⟨absolute, xs, s, hys, rfl, rfl, hne⟩

theorem IsResolved.parent (ha : a.IsResolved) (h : a.parent = some b) : b.IsResolved := by
  obtain ⟨absolute, xs, s, hxs, -, rfl, -⟩ := ha.exists_of_parent h
  exact isResolved_ofSegments hxs.of_append

/-- A location has one segment more than its directory. -/
theorem IsResolved.segments_of_parent (ha : a.IsResolved) (h : a.parent = some b) :
    a.isAbsolute = b.isAbsolute ∧ ∃ s, a.segments = b.segments ++ [s] := by
  obtain ⟨absolute, xs, s, hxs, rfl, rfl, -⟩ := ha.exists_of_parent h
  have hfront := hxs.separable.of_append.1
  rw [isAbsolute_ofSegments hxs.separable, isAbsolute_ofSegments hfront,
    segments_ofSegments hxs.separable, segments_ofSegments hfront]
  exact ⟨rfl, s, rfl⟩

theorem IsResolved.depth_of_parent (ha : a.IsResolved) (h : a.parent = some b) :
    a.depth = b.depth + 1 := by
  obtain ⟨-, s, hs⟩ := ha.segments_of_parent h
  rw [depth_eq, depth_eq, hs, List.length_append, List.length_singleton]

/-- Nothing lies between a location and its directory. -/
theorem not_between_parent (h : a.parent = some b) :
    ¬ (a.isBelow c = true ∧ c.isBelow b = true) := by
  rintro ⟨hac, hcb⟩
  rcases isWithin_iff_eq_or_isBelow.mp (isWithin_of_parent h hac) with rfl | hbc
  · exact Bool.false_ne_true ((isBelow_irrefl b).symm.trans hcb)
  · exact Bool.false_ne_true ((isBelow_irrefl b).symm.trans (isBelow_trans hbc hcb))

/-- Going up from one location, from directory to directory, leads to another one. -/
def LiesIn (l directory : Location) : Prop :=
  Relation.TransGen (fun a b => a.parent = some b) l directory

theorem LiesIn.isBelow (h : a.LiesIn b) : a.isBelow b = true := by
  induction h with
  | single h => exact isBelow_of_parent h
  | tail _ h ih => exact isBelow_trans ih (isBelow_of_parent h)

theorem liesIn_ofSegments {more : List (List Char)} (h : AreSeparable (ys ++ more))
    (hmore : more ≠ []) (hne : (ofSegments absolute ys).path ≠ "") :
    (ofSegments absolute (ys ++ more)).LiesIn (ofSegments absolute ys) := by
  induction more using List.reverseRecOn with
  | nil => exact absurd rfl hmore
  | append_singleton front s ih =>
      rw [← List.append_assoc] at h ⊢
      by_cases hfront : front = []
      · subst hfront
        rw [List.append_nil] at h ⊢
        exact .single (by rw [parent_ofSegments h, if_neg hne])
      · have hdirectory : (ofSegments absolute (ys ++ front)).path ≠ "" := by
          rw [ne_eq, path_ofSegments_eq_empty_iff h.of_append.1]
          exact fun hnil => hfront (List.append_eq_nil_iff.mp hnil.2).2
        exact .head (by rw [parent_ofSegments h, if_neg hdirectory]) (ih h.of_append.1 hfront)

theorem IsResolved.isBelow_iff_liesIn (ha : a.IsResolved) (hb : b.IsResolved) (hne : b.path ≠ "") :
    a.isBelow b = true ↔ a.LiesIn b := by
  refine ⟨fun h => ?_, LiesIn.isBelow⟩
  obtain ⟨absolute, xs, hxs, rfl⟩ := ha.exists_segments
  obtain ⟨other, ys, hys, rfl⟩ := hb.exists_segments
  obtain ⟨rfl, ⟨more, rfl⟩, hmore⟩ := (isBelow_ofSegments hxs.separable hys.separable hne).mp h
  refine liesIn_ofSegments hxs.separable (fun hnil => hmore ?_) hne
  rw [hnil, List.append_nil]

/-! ## What paths lead to is a tree -/

theorem mem_addSegment {kept : List (List Char)} {piece : List Char}
    (h : s ∈ addSegment absolute kept piece) : s = piece ∨ s ∈ kept := by
  unfold addSegment at h
  split at h
  · exact .inr h
  split at h
  · split at h
    · split at h
      · exact .inr (List.mem_cons_of_mem _ h)
      split at h
      · exact .inr h
      · exact List.mem_cons.mp h
    · split at h
      · exact absurd h List.not_mem_nil
      · exact .inl (List.mem_singleton.mp h)
  · exact List.mem_cons.mp h

/-- No segment is made up. -/
theorem mem_of_mem_resolveSegments {pieces : List (List Char)}
    (h : s ∈ resolveSegments absolute pieces) : s ∈ pieces := by
  have hfold : ∀ kept, s ∈ pieces.foldl (addSegment absolute) kept → s ∈ kept ∨ s ∈ pieces := by
    clear h
    induction pieces with
    | nil => exact fun kept hkept => .inl hkept
    | cons piece pieces ih =>
        intro kept hkept
        rcases ih _ hkept with hstep | hrest
        · exact (mem_addSegment hstep).elim (fun heq => .inr (heq ▸ List.mem_cons_self)) .inl
        · exact .inr (List.mem_cons_of_mem piece hrest)
  exact (hfold [] (List.mem_reverse.mp h)).resolve_left List.not_mem_nil

theorem mem_joined {c : Char} :
    c ∈ ['/'].intercalate xs → c = '/' ∨ ∃ s ∈ xs, c ∈ s := by
  induction xs with
  | nil => exact fun h => nomatch h
  | cons x xs ih =>
      cases xs with
      | nil =>
          rw [List.intercalate_singleton]
          exact fun h => .inr ⟨x, List.mem_cons_self, h⟩
      | cons x' xs =>
          rw [List.intercalate_cons_cons, List.mem_append, List.mem_append, List.mem_singleton]
          rintro ((h | h) | h)
          · exact .inr ⟨x, List.mem_cons_self, h⟩
          · exact .inl h
          · exact (ih h).imp_right fun ⟨s, hs, hc⟩ => ⟨s, List.mem_cons_of_mem x hs, hc⟩

theorem mem_joined_of_mem {c : Char} (hs : s ∈ xs) (hc : c ∈ s) : c ∈ ['/'].intercalate xs := by
  induction xs with
  | nil => exact absurd hs List.not_mem_nil
  | cons x xs ih =>
      cases xs with
      | nil =>
          rw [List.intercalate_singleton]
          exact List.mem_singleton.mp hs ▸ hc
      | cons x' xs =>
          rw [List.intercalate_cons_cons]
          rcases List.mem_cons.mp hs with rfl | hs
          · exact List.mem_append_left _ (List.mem_append_left _ hc)
          · exact List.mem_append_right _ (ih hs)

/-- Resolving a path brings in no characters but separators. -/
theorem mem_of_mem_chars_resolve {path : List Char} {c : Char} (h : c ∈ (resolve path).chars) :
    c = '/' ∨ c ∈ path := by
  have hjoined : c ∈ ['/'].intercalate
      (resolveSegments (path.head? == some '/') (path.splitOn '/')) → c = '/' ∨ c ∈ path := by
    intro hc
    refine (mem_joined hc).imp_right fun ⟨s, hs, hmem⟩ => ?_
    have := mem_joined_of_mem (mem_of_mem_resolveSegments hs) hmem
    rwa [List.intercalate_splitOn] at this
  have hchars : (resolve path).chars = _ := chars_ofSegments (path.head? == some '/')
    (resolveSegments (path.head? == some '/') (path.splitOn '/'))
  rw [hchars] at h
  split at h
  · exact (List.mem_cons.mp h).elim .inl hjoined
  · exact hjoined h

/-- No location that a path leads to has a backslash in it. -/
theorem notMem_backslash_ofPath (path : String) : '\\' ∉ (ofPath path).chars := by
  intro h
  rcases mem_of_mem_chars_resolve h with heq | hmem
  · exact absurd heq (by decide)
  · obtain ⟨c, -, hc⟩ := List.mem_map.mp hmem
    split at hc
    · exact absurd hc (by decide)
    · rename_i hne
      exact hne hc

theorem ofPath_path_ofPath (path : String) : ofPath (ofPath path).path = ofPath path := by
  have hsame : (ofPath path).chars.map (fun c => if c = '\\' then '/' else c) =
      (ofPath path).chars := by
    refine (List.map_congr_left fun c hc => ?_).trans (List.map_id _)
    exact if_neg fun heq : c = '\\' => notMem_backslash_ofPath path (heq ▸ hc)
  obtain ⟨absolute, xs, hxs, hpath⟩ := IsPath.isResolved ⟨path, rfl⟩ |>.exists_segments
  have hresolve := resolve_chars_ofSegments hxs
  rw [← hpath] at hresolve
  show resolve ((ofPath path).chars.map fun c => if c = '\\' then '/' else c) = ofPath path
  rw [hsame, hresolve]

/-- **Locations are the tree of normal paths.**  Whatever path is given, the location is in normal
form, without backslashes, and its own text leads to it.  One location lies below another one, if
this is not the empty one, when both are given from the root on or both are not, and the segments
of the latter are a proper prefix of those of the former; just the locations that are given from
the root on lie below the empty one.  To lie below is a strict order.  A location lies directly
below its directory, and has one segment more. -/
theorem ofPath_tree (path : String) :
    ((ofPath path).IsNormal ∧ '\\' ∉ (ofPath path).chars ∧
      ofPath (ofPath path).path = ofPath path) ∧
    (∀ other, (ofPath path).isBelow (ofPath other) = true ↔
      if (ofPath other).path = "" then (ofPath path).isAbsolute = true
      else (ofPath path).isAbsolute = (ofPath other).isAbsolute ∧
        (ofPath other).segments <+: (ofPath path).segments ∧
        (ofPath other).segments ≠ (ofPath path).segments) ∧
    ((ofPath path).isBelow (ofPath path) = false ∧
      ∀ middle top, (ofPath path).isBelow (ofPath middle) = true →
        (ofPath middle).isBelow (ofPath top) = true →
        (ofPath path).isBelow (ofPath top) = true) ∧
    (∀ directory, (ofPath path).parent = some directory →
      directory.IsNormal ∧ (ofPath path).isBelow directory = true ∧
        (∀ l : Location, ¬ ((ofPath path).isBelow l = true ∧ l.isBelow directory = true)) ∧
        (∃ s, (ofPath path).segments = directory.segments ++ [s]) ∧
        (ofPath path).depth = directory.depth + 1) := by
  have hresolved : ∀ path, (ofPath path).IsResolved := fun path => IsPath.isResolved ⟨path, rfl⟩
  refine ⟨⟨(hresolved path).isNormal, notMem_backslash_ofPath path, ofPath_path_ofPath path⟩,
    fun other => ?_, ⟨isBelow_irrefl _, fun middle top => isBelow_trans⟩, fun directory h => ?_⟩
  · split
    · rename_i hempty
      exact isBelow_of_path_eq_empty hempty
    · rename_i hne
      exact (hresolved path).isBelow_iff (hresolved other) hne
  · exact ⟨((hresolved path).parent h).isNormal, isBelow_of_parent h,
      fun l => not_between_parent h, ((hresolved path).segments_of_parent h).2,
      (hresolved path).depth_of_parent h⟩

theorem ofPath_tree_dotted :
    (ofPath "..\\ws/./lib//a.cm").parent = some (ofPath "../ws/lib/") ∧
      (ofPath "..\\ws/./lib//a.cm").isBelow (ofPath "../ws") = true ∧
      (ofPath "..\\ws/./lib//a.cm").depth = (ofPath "../ws/lib/").depth + 1 := by
  have hparent : (ofPath "..\\ws/./lib//a.cm").parent = some (ofPath "../ws/lib/") := by
    decide +kernel
  obtain ⟨-, -, ⟨-, htrans⟩, hdirectory⟩ := ofPath_tree "..\\ws/./lib//a.cm"
  obtain ⟨-, hbelow, -, -, hdepth⟩ := hdirectory (ofPath "../ws/lib/") hparent
  exact ⟨hparent, htrans "../ws/lib/" "../ws" hbelow (by decide +kernel), hdepth⟩

/-- The empty location is not where its segments would put it: what is given from the root on
lies below it, and what is not does not. -/
theorem empty_location_misplaced :
    ¬ ∀ path other : String, (ofPath path).isBelow (ofPath other) = true ↔
      (ofPath path).isAbsolute = (ofPath other).isAbsolute ∧
        (ofPath other).segments <+: (ofPath path).segments ∧
        (ofPath other).segments ≠ (ofPath path).segments := by
  intro h
  have hbelow : (ofPath "/a").isBelow (ofPath "") = true := by decide +kernel
  have hsame := ((h "/a" "").mp hbelow).1
  revert hsame
  decide +kernel

end Location
end ModelWorkspace
