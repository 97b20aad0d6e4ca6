import Mathlib
import ModelWorkspace.Text.Location

/-!
# How locations lie below each other

Lying below a directory is transitive, and a location lies below the directory that
holds it.  The locations that paths lead to are resolved: they have no empty segments.
Among them a location is told by its directory and its last segment.
-/

namespace ModelWorkspace
namespace Location

variable {a b c : Location}

/-- A location that a path leads to. -/
def IsPath (l : Location) : Prop :=
  ∃ path, l = ofPath path

/-- A location that segments lead to, whatever separated them. -/
def IsResolved (l : Location) : Prop :=
  ∃ path, l = resolve path

theorem IsPath.isResolved {l : Location} (h : l.IsPath) : l.IsResolved := by
  obtain ⟨path, rfl⟩ := h
  exact ⟨_, rfl⟩

/-- What is reached from a location is resolved. -/
theorem isResolved_join (l : Location) (path : String) : (l.join path).IsResolved := by
  unfold join
  split
  · exact ⟨_, rfl⟩
  · exact ⟨_, rfl⟩

/-! ## Directories -/

theorem isBelow_iff (l directory : Location) :
    l.isBelow directory = true ↔
      (directory.path = "/" ∧ 1 < l.chars.length ∧ l.chars.head? = some '/') ∨
        (directory.path ≠ "/" ∧ directory.chars ++ ['/'] <+: l.chars) := by
  unfold isBelow
  split
  · rename_i hroot
    simp [hroot]
  · rename_i hroot
    simp [hroot]

theorem chars_of_isRoot {r : Location} (h : r.path = "/") : r.chars = ['/'] := by
  unfold chars
  rw [h]
  rfl

/-- What starts with a separator and goes on lies below the root. -/
theorem head?_of_starts {cs ds : List Char} (h : '/' :: cs <+: ds) : ds.head? = some '/' := by
  obtain ⟨rest, rfl⟩ := h
  rfl

theorem isBelow_trans (hab : a.isBelow b = true) (hbc : b.isBelow c = true) :
    a.isBelow c = true := by
  rw [isBelow_iff] at hab hbc ⊢
  rcases hbc with ⟨hc, hlength, hhead⟩ | ⟨hc, hstarts⟩
  · refine Or.inl ⟨hc, ?_⟩
    rcases hab with ⟨-, habove⟩ | ⟨-, habove⟩
    · exact habove
    · have hlonger := habove.length_le
      rw [List.length_append] at hlonger
      refine ⟨by omega, ?_⟩
      obtain ⟨rest, hrest⟩ := habove
      cases hchars : b.chars with
      | nil =>
          rw [hchars] at hhead
          cases hhead
      | cons first others =>
          rw [hchars] at hhead hrest
          rw [← hrest]
          exact hhead
  · refine Or.inr ⟨hc, ?_⟩
    rcases hab with ⟨hb, -, habove⟩ | ⟨-, habove⟩
    · -- only the empty location has the root below it
      rw [chars_of_isRoot hb] at hstarts
      have hempty : c.chars = [] := by
        have hlength := hstarts.length_le
        rw [List.length_append] at hlength
        simp only [List.length_cons, List.length_nil] at hlength
        exact List.length_eq_zero_iff.mp (by omega)
      rw [hempty]
      cases hl : a.chars with
      | nil =>
          rw [hl] at habove
          cases habove
      | cons first others =>
          rw [hl] at habove
          cases habove
          exact ⟨others, rfl⟩
    · exact (hstarts.trans (List.prefix_append b.chars ['/'])).trans habove

theorem isWithin_iff_eq_or_isBelow {l directory : Location} :
    l.isWithin directory = true ↔ l = directory ∨ l.isBelow directory = true := by
  unfold isWithin
  rw [Bool.or_eq_true, beq_iff_eq]

theorem isWithin_refl (l : Location) : l.isWithin l = true :=
  isWithin_iff_eq_or_isBelow.mpr (Or.inl rfl)

theorem isWithin_of_isBelow (hab : a.isBelow b = true) (hbc : b.isWithin c = true) :
    a.isWithin c = true := by
  rw [isWithin_iff_eq_or_isBelow] at hbc ⊢
  rcases hbc with rfl | hbelow
  · exact Or.inr hab
  · exact Or.inr (isBelow_trans hab hbelow)

/-- What is before the last segment of a path ends with a separator. -/
theorem eq_separator {cs before : List Char} {c : Char}
    (h : cs.dropWhile (· ≠ '/') = c :: before) : c = '/' := by
  have hhead := List.head?_dropWhile_not (fun c => decide (c ≠ '/')) cs
  rw [h] at hhead
  simpa using hhead

/-- A location is its directory, a separator and its last segment; at the root, the
directory is empty. -/
theorem chars_of_parent {l r : Location} (h : l.parent = some r) :
    (r.path = "/" ∧ l.chars = '/' :: l.fileName.toList ∧ 1 < l.chars.length) ∨
      l.chars = r.chars ++ '/' :: l.fileName.toList := by
  have hsplit : l.chars = (l.chars.reverse.dropWhile (· ≠ '/')).reverse ++ l.fileName.toList := by
    unfold fileName
    rw [String.toList_ofList, ← List.reverse_append, List.takeWhile_append_dropWhile,
      List.reverse_reverse]
  unfold parent at h
  split at h
  · cases h
  · rename_i hdrop
    rw [hdrop] at hsplit
    split at h
    · rename_i hlength
      cases h
      exact Or.inl ⟨rfl, hsplit, hlength⟩
    · cases h
  · rename_i separator before hnot hdrop
    cases h
    right
    rw [hdrop, eq_separator hdrop, List.reverse_cons, List.append_assoc] at hsplit
    show l.chars = (String.ofList before.reverse).toList ++ _
    rw [String.toList_ofList]
    exact hsplit

/-- A location lies below the directory that holds it. -/
theorem isBelow_of_parent {l r : Location} (h : l.parent = some r) : l.isBelow r = true := by
  rw [isBelow_iff]
  rcases chars_of_parent h with ⟨hroot, hchars, hlength⟩ | hchars
  · refine Or.inl ⟨hroot, hlength, ?_⟩
    rw [hchars]
    rfl
  · by_cases hroot : r.path = "/"
    · refine Or.inl ⟨hroot, ?_, ?_⟩
      · rw [hchars, chars_of_isRoot hroot]
        simp
      · rw [hchars, chars_of_isRoot hroot]
        rfl
    · refine Or.inr ⟨hroot, ?_⟩
      rw [hchars]
      exact ⟨l.fileName.toList, by simp⟩

theorem notMem_fileName (l : Location) : '/' ∉ l.fileName.toList := by
  unfold fileName
  rw [String.toList_ofList, List.mem_reverse]
  intro h
  simpa using List.mem_takeWhile_imp h

/-- A directory that holds something has a path. -/
theorem chars_ne_nil_of_parent {l r : Location} (h : l.parent = some r) : r.chars ≠ [] := by
  unfold parent at h
  split at h
  · cases h
  · split at h
    · cases h
      decide
    · cases h
  · rename_i separator before hnot hdrop
    cases h
    intro hnil
    unfold chars at hnil
    rw [String.toList_ofList, List.reverse_eq_nil_iff] at hnil
    exact hnot (eq_separator hdrop) hnil

/-- A separated prefix of a path ends with its directory at the latest. -/
theorem prefix_directory {cs ds name : List Char} (hname : '/' ∉ name)
    (h : ds ++ ['/'] <+: cs ++ '/' :: name) : ds = cs ∨ ds ++ ['/'] <+: cs := by
  obtain ⟨rest, hrest⟩ := h
  rw [List.append_assoc, List.singleton_append] at hrest
  rcases List.append_eq_append_iff.mp hrest with ⟨more, hcs, hmore⟩ | ⟨more, hds, hmore⟩
  · cases more with
    | nil => exact Or.inl (by rw [hcs, List.append_nil])
    | cons first others =>
        rw [List.cons_append, List.cons.injEq] at hmore
        refine Or.inr ⟨others, ?_⟩
        rw [hcs, hmore.1, List.append_assoc, List.singleton_append]
  · cases more with
    | nil => exact Or.inl (by rw [hds, List.append_nil])
    | cons first others =>
        -- the last segment would have a separator in it
        rw [List.cons_append, List.cons.injEq] at hmore
        refine absurd ?_ hname
        rw [hmore.2]
        exact List.mem_append_right _ List.mem_cons_self

/-- What lies below a directory is held by this directory, or by one below it. -/
theorem isWithin_of_parent {l r d : Location} (h : l.parent = some r)
    (hbelow : l.isBelow d = true) : r.isWithin d = true := by
  rw [isWithin_iff_eq_or_isBelow, isBelow_iff]
  have hr : r.path = "/" ∨ l.chars = r.chars ++ '/' :: l.fileName.toList :=
    (chars_of_parent h).imp_left And.left
  rcases (isBelow_iff l d).mp hbelow with ⟨hd, -, hhead⟩ | ⟨hd, hstarts⟩
  · by_cases hroot : r.path = "/"
    · exact Or.inl (ext_path (hroot.trans hd.symm))
    · -- another directory that starts with a separator has more characters
      have hchars := hr.resolve_left hroot
      obtain ⟨first, others, hcons⟩ := List.exists_cons_of_ne_nil (chars_ne_nil_of_parent h)
      have hfirst : first = '/' := by
        rw [hchars, hcons] at hhead
        exact Option.some.inj hhead
      refine Or.inr (Or.inl ⟨hd, ?_, by rw [hcons, hfirst]; rfl⟩)
      rw [hcons, List.length_cons]
      refine Nat.lt_add_of_pos_left (List.length_pos_iff.mpr fun hnil => hroot ?_)
      rw [hnil, hfirst] at hcons
      exact congrArg path (ext_path (b := ⟨"/"⟩) (String.toList_inj.mp hcons))
  · by_cases hchars : l.chars = r.chars ++ '/' :: l.fileName.toList
    · rw [hchars] at hstarts
      exact (prefix_directory l.notMem_fileName hstarts).imp
        (fun heq => ext_path (String.toList_inj.mp heq.symm)) fun hstarts => Or.inr ⟨hd, hstarts⟩
    · -- only the empty location has the root below it, apart from the root
      have hroot := hr.resolve_right hchars
      obtain ⟨-, hl, -⟩ := (chars_of_parent h).resolve_right hchars
      have hfirst : d.chars ++ ['/'] <+: [] ++ '/' :: l.fileName.toList := hl ▸ hstarts
      have hempty : d.chars = [] := by
        rcases prefix_directory l.notMem_fileName hfirst with heq | hnone
        · exact heq
        · exact absurd (List.prefix_nil.mp hnone) (List.append_ne_nil_of_right_ne_nil _ (by decide))
      refine Or.inr (Or.inr ⟨hd, ?_⟩)
      rw [hempty, chars_of_isRoot hroot]
      exact List.prefix_refl _

/-! ## Locations of paths -/

/-- No segment of a path has a separator in it. -/
theorem notMem_of_mem_splitOn {sep : Char} {cs segment : List Char}
    (h : segment ∈ cs.splitOn sep) : sep ∉ segment := by
  induction cs generalizing segment with
  | nil =>
      rw [List.splitOn_nil, List.mem_singleton] at h
      rw [h]
      exact List.not_mem_nil
  | cons first rest ih =>
      rw [List.splitOn_cons_eq_if_modifyHead] at h
      by_cases hfirst : (first == sep) = true
      · rw [if_pos hfirst] at h
        rcases List.mem_cons.mp h with rfl | h
        · exact List.not_mem_nil
        · exact ih h
      · rw [if_neg hfirst] at h
        cases hrest : rest.splitOn sep with
        | nil => exact absurd hrest (List.splitOn_ne_nil sep rest)
        | cons head tail =>
            rw [hrest, List.modifyHead_cons] at h
            rw [hrest] at ih
            rcases List.mem_cons.mp h with rfl | h
            · intro hmem
              rcases List.mem_cons.mp hmem with heq | hmem
              · exact hfirst (beq_iff_eq.mpr heq.symm)
              · exact ih List.mem_cons_self hmem
            · exact ih (List.mem_cons_of_mem _ h)

/-- One step of resolving a path keeps segments that are not empty. -/
theorem segment_of_mem_addSegment {absolute : Bool} {kept : List (List Char)}
    {segment : List Char} (hsegment : '/' ∉ segment)
    (hkept : ∀ s ∈ kept, s ≠ [] ∧ '/' ∉ s) :
    ∀ s ∈ addSegment absolute kept segment, s ≠ [] ∧ '/' ∉ s := by
  unfold addSegment
  split
  · exact hkept
  rename_i hplain
  have hnew : segment ≠ [] ∧ '/' ∉ segment := ⟨fun h => hplain (Or.inl h), hsegment⟩
  split
  · -- two dots take the last segment away, if there is one that can be taken
    split
    · split
      · exact (List.forall_mem_cons.mp hkept).2
      · split
        · exact hkept
        · exact List.forall_mem_cons.mpr ⟨hnew, hkept⟩
    · split
      · exact hkept
      · exact List.forall_mem_cons.mpr ⟨hnew, hkept⟩
  · exact List.forall_mem_cons.mpr ⟨hnew, hkept⟩

/-- What is left of a path are segments that are not empty. -/
theorem segment_of_mem_resolveSegments {absolute : Bool} {segments : List (List Char)}
    (hsegments : ∀ s ∈ segments, '/' ∉ s) {segment : List Char}
    (h : segment ∈ resolveSegments absolute segments) : segment ≠ [] ∧ '/' ∉ segment := by
  have hfold : ∀ (segments kept : List (List Char)), (∀ s ∈ segments, '/' ∉ s) →
      (∀ s ∈ kept, s ≠ [] ∧ '/' ∉ s) →
      ∀ s ∈ segments.foldl (addSegment absolute) kept, s ≠ [] ∧ '/' ∉ s := by
    intro segments
    induction segments with
    | nil => exact fun kept _ hkept => hkept
    | cons first rest ih =>
        intro kept hall hkept
        obtain ⟨hfirst, hrest⟩ := List.forall_mem_cons.mp hall
        exact ih _ hrest (segment_of_mem_addSegment hfirst hkept)
  exact hfold segments [] hsegments (fun s hs => absurd hs List.not_mem_nil) segment
    (List.mem_reverse.mp h)

/-- Segments in a row do not start with a separator. -/
theorem head?_intercalate {segments : List (List Char)}
    (h : ∀ s ∈ segments, s ≠ [] ∧ '/' ∉ s) :
    (['/'].intercalate segments).head? ≠ some '/' := by
  cases segments with
  | nil => exact fun hnone => nomatch hnone
  | cons first rest =>
      obtain ⟨hne, hnot⟩ := h first List.mem_cons_self
      cases first with
      | nil => exact absurd rfl hne
      | cons char chars =>
          have hchar : char ≠ '/' := fun heq => hnot (heq ▸ List.mem_cons_self)
          -- a separator only follows the first segment
          cases rest with
          | nil =>
              rw [List.intercalate_singleton]
              exact fun heq => hchar (Option.some.inj heq)
          | cons second others =>
              rw [List.intercalate_cons_cons]
              exact fun heq => hchar (Option.some.inj heq)

/-- No resolved location starts with two separators. -/
theorem IsResolved.not_doubled {l : Location} (h : l.IsResolved) : ¬ ['/', '/'] <+: l.chars := by
  obtain ⟨cs, rfl⟩ := h
  have hhead : (['/'].intercalate (resolveSegments (cs.head? == some '/')
      (cs.splitOn '/'))).head? ≠ some '/' :=
    head?_intercalate fun s hs =>
      segment_of_mem_resolveSegments (fun _ hmem => notMem_of_mem_splitOn hmem) hs
  unfold resolve chars
  dsimp only
  rw [String.toList_ofList]
  split
  · rintro ⟨rest, hrest⟩
    rw [List.cons_append, List.cons.injEq] at hrest
    apply hhead
    rw [← hrest.2]
    rfl
  · intro hstarts
    exact hhead (head?_of_starts hstarts)

theorem IsResolved.chars_of_parent {l r : Location} (h : l.IsResolved)
    (hparent : l.parent = some r) :
    l.chars = (if r.path = "/" then [] else r.chars) ++ '/' :: l.fileName.toList := by
  rcases Location.chars_of_parent hparent with ⟨hroot, hchars, -⟩ | hchars
  · rw [if_pos hroot]
    exact hchars
  · split
    · rename_i hroot
      rw [chars_of_isRoot hroot] at hchars
      exact absurd ⟨l.fileName.toList, hchars.symm⟩ h.not_doubled
    · exact hchars

/-- A resolved location is told by its directory and its last segment. -/
theorem IsResolved.eq_of_parent_eq {r : Location} (ha : a.IsResolved) (hb : b.IsResolved)
    (hpa : a.parent = some r) (hpb : b.parent = some r) (hname : a.fileName = b.fileName) :
    a = b := by
  have hchars : a.chars = b.chars := by
    rw [ha.chars_of_parent hpa, hb.chars_of_parent hpb, hname]
  exact ext_path (String.toList_inj.mp hchars)

end Location
end ModelWorkspace
