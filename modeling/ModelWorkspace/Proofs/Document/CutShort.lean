import ModelWorkspace.Proofs.Document.Completion
import ModelWorkspace.Proofs.Element.CutShort
import ModelWorkspace.Proofs.Text.Slices

/-!
# Documents of texts that are cut short

While a user types into a dotted name, only the text in front of the cursor is read, with a name put
in there.  Whatever refers to something by the dotted name in the whole text does so in this text,
too, from an element of the same kind and by the same property, and with a range that ends where
this text does (`exists_site_cutShort`), however much of the dotted name stands in front of the
cursor and however broken the text is.
-/

namespace ModelWorkspace

namespace Grammar

/-- Tokens that hold the word once, cut short there. -/
theorem Cuts.append {c : CutPoint} {before after : List Token} (hbefore : c.word ∉ before)
    (once : c.word ∉ after) : Cuts c (before ++ c.word :: after) (before ++ c.first :: c.tail) := by
  induction before with
  | nil => exact .here once
  | cons t before ih =>
      rw [List.mem_cons, not_or] at hbefore
      exact .cons t (Ne.symm hbefore.1) (ih hbefore.2)

end Grammar

/-- A dotted name stands in a text behind `front`, and `typed` of it stands in front of a cursor;
the other text ends at the cursor, with a name put in there. -/
structure Typing (front typed post behind name : List Char) (text short : String) : Prop where
  dotted : IsDottedName (typed ++ post)
  segment : IsSegment name
  exponent : Scan.exponentLength name = 0
  whole : text.toList = front ++ (typed ++ post ++ behind)
  ended : short.toList = front ++ (typed ++ name)

namespace Typing

open Grammar Outline

variable {front typed post behind name : List Char} {text short : String}

/-- What stands in the place of the dotted name in the other text. -/
def last (front typed name : List Char) : TextRange :=
  ⟨byteWidth front, byteWidth front + byteWidth (typed ++ name)⟩

variable (h : Typing front typed post behind name text short)
include h

/-- The tokens of the other text are cut short where the dotted name begins. -/
theorem exists_cuts {word : Token} (hword : word ∈ (tokenize true text).tokens)
    (hoffset : word.offset = byteWidth front) (hwidth : 0 < word.width) :
    ∃ c : CutPoint, c.word = word ∧
      Cuts c (tokenize true text).tokens (tokenize true short).tokens ∧
      ((c.first :: c.tail).map Token.width).sum = byteWidth (typed ++ name) := by
  obtain ⟨before, after, hsplit⟩ := List.append_of_mem hword
  have htiles := tiles_tokenize true text
  rw [hsplit, h.whole] at htiles
  obtain ⟨hfront, hbehind⟩ := htiles.notMem hwidth
  have hbefore : before.flatMap Token.chars = front := by
    obtain ⟨spelled, others, htaken, hothers⟩ := htiles.of_append
    have hall := htiles.flatMap_chars
    rw [List.flatMap_append, htaken.flatMap_chars] at hall
    rw [htaken.flatMap_chars]
    refine (append_inj_of_byteWidth hall ?_).1
    rw [← htaken.sum_width, ← hoffset, htiles.offset_eq, Nat.zero_add]
  have hchars : word.chars ≠ [] := by
    intro hnil
    rw [Token.width, hnil] at hwidth
    exact absurd hwidth (Nat.lt_irrefl 0)
  have hput := h.dotted.put h.segment
  rw [← String.ofList_toList (s := text), h.whole] at hsplit
  obtain ⟨hkind, htokens⟩ := tokenize_cutShort (h.dotted.replaces h.segment h.exponent behind)
    hput.notMem_newline hsplit hbefore hchars
  obtain ⟨first, tail, hscan, hfirst, htail⟩ := hput.scan (byteWidth front)
  refine ⟨⟨word, first, tail, hkind, hfirst, htail⟩, rfl, ?_, ?_⟩
  · rw [← String.ofList_toList (s := text), ← String.ofList_toList (s := short), h.whole, h.ended,
      hsplit, htokens, hscan]
    exact @Cuts.append ⟨word, first, tail, hkind, hfirst, htail⟩ before after hfront hbehind
  · rw [← hscan]
    exact (Scan.tiles_scan (byteWidth front) (typed ++ name)).sum_width

/-- The outline of the other text is cut short at a scalar that begins where the dotted name
does. -/
theorem cutAmong {s : Scalar}
    (hs : s ∈ Member.allScalars (ofTree (Parse.ofText true text).tree))
    (hstart : s.range.start = byteWidth front) :
    Member.CutAmong (last front typed name) (ofTree (Parse.ofText true text).tree)
      (ofTree (Parse.ofText true short).tree) := by
  obtain ⟨hmakes, hproperties⟩ := @makes_fileMembers (byteWidth text.toList) 0
    (tokenize true text).tokens
  have hleaves : ∀ text, Tree.allLeaves
      (fileMembers (byteWidth text.toList) .never 0 (tokenize true text).tokens).trees =
        (tokenize true text).tokens := Parse.leaves_underSignal .never true
  obtain ⟨hfirsts, -⟩ := (closed_firsts (byteWidth text.toList)).fileMembers .never 0
    (tokenize true text).tokens
  -- the scalar begins with a token, at which the text is cut short
  have hbegins : BeginAt _ _ := beginAt_members fun x hx => by
    obtain ⟨_, hx'⟩ := tiles_of_mem_placed (hleaves text ▸ tiles_tokenize true text) hx
    exact begins (hmakes _ (bounds_of_mem_placed hx).1) hx'
  obtain ⟨word, hmem, hoffset⟩ := List.mem_map.mp (hbegins s hs)
  obtain ⟨hword, hvalue⟩ := hfirsts.2 word hmem
  obtain ⟨c, rfl, hcuts, hwidth⟩ := h.exists_cuts hword (hoffset.trans hstart)
    (width_pos_of_beginsValue hword hvalue)
  cases @cutShort_fileMembers c (byteWidth text.toList) (byteWidth short.toList) _ _ 0 hcuts with
  | same inFront => exact absurd hmem inFront.firsts
  | missed lacks => exact absurd hmem lacks.firsts
  | @reached before after t t' cut trees trees' past ended =>
      have hplain := cut.isPlain.1
      have hinside : t ∈ before ++ t :: after := List.mem_append_right _ List.mem_cons_self
      rw [trees] at hproperties hmakes
      have hstop : 0 + Tree.totalWidth before + t'.width = (last front typed name).stop := by
        have hall := hleaves short
        have hsum := (tiles_tokenize true short).sum_width
        rw [trees'] at hall
        rw [← hall, ← Tree.totalWidth_eq_sum, Tree.totalWidth_append, h.ended, byteWidth_append,
          Tree.totalWidth, Tree.totalWidth, Nat.add_zero] at hsum
        rw [Nat.zero_add]
        exact hsum
      have hlast : (last front typed name).start + ((c.first :: c.tail).map Token.width).sum =
          (last front typed name).stop := congrArg (byteWidth front + ·) hwidth
      have hfollows := follows cut (hmakes t hinside) hstop hlast
      have hcut := hfollows.cutAmong (.inl (hproperties t (mem_parts hinside hplain))) after
      rw [← trees, ← trees'] at hcut
      exact hcut

/-- What refers to something by the dotted name does so in the other text, too. -/
theorem exists_site {root : Element} (hroot : (Document.ofText text).root = some root)
    {s : ElementKind × ReferenceSite} (hs : s ∈ root.sites)
    (hstart : s.2.range.start = byteWidth front) :
    ∃ root', (Document.ofUnfinishedText short).root = some root' ∧
      ∃ s' ∈ root'.sites, s'.1 = s.1 ∧ s'.2.property = s.2.property ∧
        s'.2.range = last front typed name := by
  have houtline : ofTree (Parse.ofText true text).tree = ofTree (Parse.ofText false text).tree :=
    ofTree_congr (parallel_fileMembers 0 (Document.closes_tokenize text)).trees
  have hroot : (Lowering.root (ofTree (Parse.ofText true text).tree)).1 = some root :=
    houtline ▸ hroot
  have hsites := (Lowering.sites_root hroot).mem_iff.mp hs
  obtain ⟨scalar, hscalar, hrange⟩ := List.mem_map.mp
    ((Lowering.rootSites_sublist _).subset (List.mem_map_of_mem hsites))
  have hcut := h.cutAmong hscalar ((congrArg TextRange.start hrange).trans hstart)
  obtain ⟨outer, hinside, hapart⟩ := scattered_ofText true text
  have hnodup : (Member.starts (ofTree (Parse.ofText true text).tree)).Nodup := by
    refine List.pairwise_map.mpr ((List.pairwise_map.mp hapart).imp_of_mem fun {a b} ha _ h => ?_)
    have hfilled := (hinside a.range (List.mem_map_of_mem ha)).2.1
    omega
  obtain ⟨s', hs', hsame⟩ := Lowering.carriesOver_rootSites hcut hnodup s hsites hstart
  obtain ⟨root', hroot'⟩ := Lowering.exists_root_of_mem_rootSites hs'
  exact ⟨root', hroot', s', (Lowering.sites_root hroot').mem_iff.mpr hs', hsame⟩

end Typing
end ModelWorkspace
