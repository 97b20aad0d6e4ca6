import ModelWorkspace.Proofs.Tree.LineKeys
import ModelWorkspace.Proofs.Tree.Simulation

/-!
# Recovery ends with the line

Whatever a rule makes of its tokens, well formed or not, it gives back control where a reader of
keys would be at the front of a line: the keys of the properties in a tree are the keys among
its tokens, in their order (`Grammar.allPropertyKeys_fileMembers`).

`Tracks` says this of one rule.  The keys of its trees, with those of the tokens that it
leaves, are the keys of the tokens that it was given; and what is left keeps to its places, so
that the next rule can go on.  A text that is cut off within a list is the one where it does
not: there the list takes the ends of blocks for elements, but then nothing but such ends is
left, and no key among them (`Keeps`).
-/

namespace ModelWorkspace

namespace Tree

/-- The identifier that a tree consists of. -/
def ident? : Tree → Option Token
  | .leaf t => if t.kind = .ident then some t else none
  | .node _ _ => none

mutual

/-- The keys of the properties of a tree, from left to right: the first identifier that a
`property` node holds itself, or none if there is no such identifier. -/
def propertyKeys : Tree → List (Option Token)
  | .leaf _ => []
  | .node kind children =>
    (if kind = .property then [children.findSome? ident?] else []) ++ allPropertyKeys children
termination_by structural t => t

/-- The keys of the properties of several trees. -/
def allPropertyKeys : List Tree → List (Option Token)
  | [] => []
  | t :: ts => t.propertyKeys ++ allPropertyKeys ts
termination_by structural ts => ts

end

@[simp] theorem allPropertyKeys_append (ts us : List Tree) :
    allPropertyKeys (ts ++ us) = allPropertyKeys ts ++ allPropertyKeys us := by
  induction ts with
  | nil => rfl
  | cons t ts ih => simp [allPropertyKeys, ih]

theorem allPropertyKeys_node {kind : SyntaxKind} (hkind : kind ≠ .property)
    (children : List Tree) : allPropertyKeys [.node kind children] = allPropertyKeys children := by
  simp [allPropertyKeys, propertyKeys, hkind]

theorem allPropertyKeys_property {key : Token} (hkey : key.kind = .ident)
    (children : List Tree) :
    allPropertyKeys [.node .property (.leaf key :: children)] =
      some key :: allPropertyKeys children := by
  simp [allPropertyKeys, propertyKeys, ident?, hkey]

end Tree

namespace Grammar

open Nesting

/-! ## Places -/

/-- The place of a spot on its line. -/
def Spot.place : Spot → Place
  | .front => .front
  | .dash | .within => .within

/-- The tokens keep to their places, or nothing but the ends of blocks is left. -/
def Keeps (spot : Spot) (depth : Nat) (tokens : List Token) : Prop :=
  Placed true spot.place depth (kinds tokens) ∨ Closing tokens

/-- The same wherever the first token stands. -/
def KeepsSomewhere (depth : Nat) (tokens : List Token) : Prop :=
  (∃ place, Placed true place depth (kinds tokens)) ∨ Closing tokens

variable {stop depth inner : Nat} {spot next : Spot} {tokens left ts : List Token} {t : Token}
  {found : List Token}

theorem keeps_nil : Keeps spot depth [] :=
  .inr (List.forall_mem_nil _)

theorem Keeps.tail (ht : t.kind.isLayout = false) (h : Keeps .within depth (t :: ts)) :
    Keeps .within depth ts :=
  h.imp (placed_tail ht) Closing.tail

theorem Keeps.of_newline (ht : t.kind = .newline) (h : Keeps spot depth (t :: ts)) :
    Keeps .front depth ts := by
  refine h.imp (fun h => ?_) Closing.tail
  rw [kinds_of_isLayout (by rw [ht]; rfl), ht] at h
  exact h.of_newline

theorem Keeps.of_indent (ht : t.kind = .indent) (h : Keeps spot depth (t :: ts)) :
    Keeps .front (depth + 1) ts := by
  refine h.imp (fun h => ?_) Closing.tail
  rw [kinds_of_isLayout (by rw [ht]; rfl), ht] at h
  exact h.of_indent

theorem Keeps.of_dedent (ht : t.kind = .dedent) (h : Keeps spot depth (t :: ts)) :
    Keeps .front (depth - 1) ts := by
  refine h.imp (fun h => ?_) Closing.tail
  rw [kinds_of_isLayout (by rw [ht]; rfl), ht] at h
  obtain ⟨-, outer, rfl, hts⟩ := h
  exact hts

/-- Within a line no block is opened. -/
theorem Keeps.not_indent (h : Keeps .within depth (t :: ts)) : t.kind ≠ .indent := by
  intro ht
  rcases h with h | h
  · rw [kinds_of_isLayout (by rw [ht]; rfl), ht] at h
    exact h.not_indent
  · rcases h.head (by rw [ht]; rfl) with hkind | hkind <;>
      · rw [ht] at hkind
        cases hkind

/-- Within a line a block is closed only if the text is cut off there. -/
theorem Keeps.closing (ht : t.kind = .dedent) (h : Keeps .within depth (t :: ts)) :
    Closing (t :: ts) := by
  rcases h with h | h
  · have hkinds := kinds_of_isLayout (by rw [ht]; rfl) ts
    rw [hkinds, ht] at h
    obtain ⟨-, count, hcount⟩ := h.1 rfl
    intro kind hkind
    rw [hkinds, ht, hcount, ← List.replicate_succ] at hkind
    exact .inr (List.eq_of_mem_replicate hkind)
  · exact h

theorem Keeps.somewhere (h : Keeps spot depth tokens) : KeepsSomewhere depth tokens :=
  h.imp_left fun h => ⟨spot.place, h⟩

theorem KeepsSomewhere.tail (ht : t.kind.isLayout = false) (h : KeepsSomewhere depth (t :: ts)) :
    KeepsSomewhere depth ts := by
  refine h.imp (fun ⟨place, h⟩ => ?_) Closing.tail
  cases htrivia : t.kind.isTrivia with
  | true =>
      rw [kinds_trivia htrivia] at h
      exact ⟨place, h⟩
  | false =>
      rw [kinds_cons htrivia] at h
      obtain ⟨next, hnext, -⟩ := h.next ht
      exact ⟨next, hnext⟩

theorem KeepsSomewhere.front (hend : AtEnd tokens) (h : KeepsSomewhere depth tokens) :
    Keeps .front depth tokens :=
  h.imp_left fun ⟨_, h⟩ => placed_front hend h

theorem Keeps.front (hend : AtEnd tokens) (h : Keeps spot depth tokens) :
    Keeps .front depth tokens :=
  h.somewhere.front hend

/-- Behind the first token of a line one is within it. -/
theorem Keeps.entered (ht : t.kind = .ident ∨ t.kind = .dash) (h : Keeps spot depth (t :: ts)) :
    Keeps .within depth ts := by
  refine h.imp (fun h => ?_) Closing.tail
  rcases ht with ht | ht <;>
    · rw [kinds_cons (by rw [ht]; rfl), ht] at h
      cases spot <;> exact h

theorem keys_of_closing (h : Closing tokens) : keys spot depth tokens = [] := by
  induction tokens generalizing spot depth with
  | nil => rfl
  | cons t ts ih =>
      have hts := h.tail
      cases htrivia : t.kind.isTrivia with
      | true => rw [keys_trivia htrivia, ih hts]
      | false =>
          rcases h.head htrivia with ht | ht
          · rw [keys_newline ht, ih hts]
          · rw [keys_dedent ht, ih hts]

/-! ## Readings that track the keys -/

/-- The keys `found` among the tokens are those of the trees and those of what is left, which
begins at a spot below `depth` open blocks. -/
structure Tracks (found : List Token) (spot : Spot) (depth : Nat) {tokens : List Token}
    (r : Reading tokens) : Prop where
  keys : found.map some = Tree.allPropertyKeys r.trees ++ (keys spot depth r.rest).map some
  rest : Keeps spot depth r.rest

section Combinators

variable {r : Reading tokens}

theorem Keeps.nothing (h : Keeps spot depth ts) :
    Tracks (keys spot depth ts) spot depth (.nothing ts) :=
  ⟨rfl, h⟩

theorem Tracks.withLeaf (h : Tracks found spot depth r) (t : Token) :
    Tracks found spot depth (r.withLeaf t) :=
  ⟨h.keys, h.rest⟩

theorem Tracks.afterFirst (h : Tracks found spot depth r) (t : Token) :
    Tracks found spot depth (r.behind t) :=
  ⟨h.keys, h.rest⟩

theorem Tracks.report (h : Tracks found spot depth r) (message : String) (range : TextRange) :
    Tracks found spot depth (r.report message range) :=
  ⟨h.keys, h.rest⟩

theorem Tracks.wrap (h : Tracks found spot depth r) {kind : SyntaxKind}
    (hkind : kind ≠ .property) : Tracks found spot depth (r.wrap kind) :=
  ⟨h.keys.trans (congrArg (· ++ _) (Tree.allPropertyKeys_node hkind r.trees).symm), h.rest⟩

theorem Tracks.wrapFrom (h : Tracks found spot depth r) {kind : SyntaxKind}
    (hkind : kind ≠ .property) (t : Token) : Tracks found spot depth (r.wrapFrom kind t) :=
  ⟨h.keys.trans (congrArg (· ++ _) (Tree.allPropertyKeys_node hkind (.leaf t :: r.trees)).symm),
    h.rest⟩

/-- A property adds its key in front. -/
theorem Tracks.wrapProperty {key : Token} (hkey : key.kind = .ident)
    (h : Tracks found spot depth r) :
    Tracks (key :: found) spot depth (r.wrapFrom .property key) := by
  refine ⟨?_, h.rest⟩
  show (key :: found).map some = Tree.allPropertyKeys [.node .property (.leaf key :: r.trees)] ++ _
  rw [Tree.allPropertyKeys_property hkey, List.map_cons, h.keys]
  rfl

/-- What is read behind has to track the keys of what was left. -/
theorem Tracks.followedBy (h : Tracks found spot depth r) (hrest : r.rest = left)
    {behind : Reading left}
    (hbehind : Keeps spot depth left → Tracks (Grammar.keys spot depth left) next inner behind) :
    Tracks found next inner (r.followedBy hrest behind) := by
  subst hrest
  have hkeys := (hbehind h.rest).keys
  refine ⟨?_, (hbehind h.rest).rest⟩
  show found.map some = Tree.allPropertyKeys (r.trees ++ behind.trees) ++ _
  rw [h.keys, hkeys, Tree.allPropertyKeys_append, List.append_assoc]
  rfl

theorem Tracks.append (h : Tracks found spot depth r) {behind : Reading r.rest}
    (hbehind : Keeps spot depth r.rest →
      Tracks (Grammar.keys spot depth r.rest) next inner behind) :
    Tracks found next inner (r.append behind) :=
  h.followedBy rfl hbehind

/-- At the end of a line one is at the front of the next. -/
theorem Tracks.atEnd (h : Tracks found spot depth r) (hend : AtEnd r.rest) :
    Tracks found .front depth r :=
  ⟨by rw [h.keys, hend.keys_eq spot .front], h.rest.front hend⟩

/-- If nothing is left, it is left at every place. -/
theorem Tracks.ofNil (h : Tracks found spot depth r) (hnil : r.rest = []) :
    Tracks found next inner r :=
  ⟨by rw [h.keys, hnil]; rfl, by rw [hnil]; exact keeps_nil⟩

end Combinators

theorem atEnd_nil : AtEnd [] := fun _ h => by cases h

theorem atEnd_cons (ht : t.kind.isLayout = true) : AtEnd (t :: ts) :=
  fun _ h => Option.some.inj h ▸ ht

/-! ## Rules without blocks -/

theorem allPropertyKeys_skip (passes : SyntaxKind → Bool) (tokens : List Token) :
    Tree.allPropertyKeys (skip passes tokens).trees = [] :=
  skip_induction (P := fun _ r => Tree.allPropertyKeys r.trees = []) (fun _ => rfl)
    (fun _ _ _ _ hr => hr) tokens

/-- What is skipped holds no key. -/
theorem tracks_skip {passes : SyntaxKind → Bool} (tokens : List Token)
    (hkeys : keys spot depth tokens = keys next depth (skip passes tokens).rest)
    (hrest : Keeps next depth (skip passes tokens).rest) :
    Tracks (keys spot depth tokens) next depth (skip passes tokens) :=
  ⟨by rw [allPropertyKeys_skip, hkeys]; rfl, hrest⟩

theorem tracks_trivia (h : Keeps spot depth tokens) :
    Tracks (keys spot depth tokens) spot depth (trivia tokens) := by
  refine tracks_skip tokens ?_ (h.imp placed_trivia (Closing.skip · _))
  induction tokens with
  | nil => rfl
  | cons t ts ih =>
      rw [skip]
      split
      · rename_i ht
        rw [keys_trivia ht]
        refine ih (h.imp (fun h => ?_) Closing.tail)
        rwa [kinds_trivia ht] at h
      · rfl

theorem keys_blank (tokens : List Token) :
    keys .front depth tokens = keys .front depth (blank tokens).rest := by
  unfold blank
  induction tokens with
  | nil => rfl
  | cons t ts ih =>
      rw [skip]
      split
      · rename_i ht
        cases htrivia : t.kind.isTrivia with
        | true => rw [keys_trivia htrivia, ih]; rfl
        | false =>
            have hnewline : t.kind = .newline := by
              simpa [SyntaxKind.isSkipped, htrivia] using ht
            rw [keys_newline hnewline, ih]
            rfl
      · rfl

theorem tracks_blank (h : Keeps .front depth tokens) :
    Tracks (keys .front depth tokens) .front depth (blank tokens) :=
  tracks_skip tokens (keys_blank tokens) (h.imp placed_blank (Closing.skip · _))

theorem tracks_lineEnd (h : Keeps .front depth tokens) :
    Tracks (keys .front depth tokens) .front depth (lineEnd tokens) := by
  cases tokens with
  | nil => exact h.nothing
  | cons t ts =>
      rw [lineEnd]
      split
      · rename_i ht
        rw [keys_newline ht]
        exact (h.of_newline ht).nothing.withLeaf t
      · exact h.nothing

/-- Up to the end of its line, a line is set aside with whatever is on it. -/
theorem tracks_errorFrom (t : Token) (h : KeepsSomewhere depth tokens) :
    Tracks (keys .within depth tokens) .front depth (errorFrom t tokens) := by
  have hskip : keys .within depth tokens =
        keys .front depth (skip (fun kind => !kind.isLayout) tokens).rest ∧
      Keeps .front depth (skip (fun kind => !kind.isLayout) tokens).rest := by
    induction tokens with
    | nil => exact ⟨rfl, h.front atEnd_nil⟩
    | cons t ts ih =>
        rw [skip]
        split
        · rename_i ht
          have ht : t.kind.isLayout = false := by simpa using ht
          rw [keys_within ht]
          exact ih (h.tail ht)
        · rename_i ht
          have hend : AtEnd (t :: ts) := atEnd_cons (by simpa using ht)
          exact ⟨hend.keys_eq .within .front, h.front hend⟩
  exact (tracks_skip tokens hskip.1 hskip.2).wrapFrom (by decide) t

theorem tracks_recover (message : String) (h : Keeps .within depth tokens) :
    Tracks (keys .within depth tokens) .front depth (recover stop message tokens) := by
  have herror : SyntaxKind.error ≠ .property := by decide
  cases tokens with
  | nil => exact ((h.nothing.wrap herror).report _ _).atEnd atEnd_nil
  | cons t ts =>
      rw [recover]
      refine Tracks.report ?_ _ _
      split
      · rename_i ht
        exact (h.nothing.wrap herror).atEnd (atEnd_cons (by rw [ht]; rfl))
      · rename_i hdedent
        split
        · rename_i hlayout
          have hindent := h.not_indent
          have ht : t.kind = .newline := by
            revert hlayout hdedent hindent
            cases t.kind <;> simp [SyntaxKind.isLayout]
          rw [keys_newline ht]
          exact ((h.of_newline ht).nothing.wrapFrom (by decide) t).afterFirst t
        · rename_i hlayout
          have hlayout : t.kind.isLayout = false := by simpa using hlayout
          rw [keys_within hlayout]
          exact (tracks_errorFrom t (h.tail hlayout).somewhere).afterFirst t

theorem tracks_recoverLine (message : String) (h : Keeps .within depth tokens) :
    Tracks (keys .within depth tokens) .front depth (recoverLine stop message tokens) :=
  (tracks_recover message h).append tracks_lineEnd

theorem tracks_nameTail (h : Keeps .within depth tokens) :
    Tracks (keys .within depth tokens) .within depth (nameTail stop tokens) := by
  fun_induction nameTail stop tokens with
  | case1 dot ident ts hdot hident ih =>
      have hlayout : dot.kind.isLayout = false := by rw [hdot]; rfl
      have hlayout' : ident.kind.isLayout = false := by rw [hident]; rfl
      rw [keys_within hlayout, keys_within hlayout']
      exact ((ih ((h.tail hlayout).tail hlayout')).withLeaf ident).withLeaf dot
  | case2 dot ident ts hdot hident =>
      have hlayout : dot.kind.isLayout = false := by rw [hdot]; rfl
      rw [keys_within hlayout]
      exact ((h.tail hlayout).nothing.withLeaf dot).report _ _
  | case4 dot hdot =>
      have hlayout : dot.kind.isLayout = false := by rw [hdot]; rfl
      rw [keys_within hlayout]
      exact ((h.tail hlayout).nothing.withLeaf dot).report _ _
  | case3 | case5 | case6 => exact h.nothing

theorem tracks_scalar (t : Token) (h : Keeps .within depth tokens) :
    Tracks (keys .within depth tokens) .within depth (scalar stop t tokens) := by
  rw [scalar]
  split
  · exact ((tracks_nameTail h).wrapFrom (by decide) t).wrap (by decide)
  · exact h.nothing.wrapFrom (by decide) t

theorem tracks_listElement (ht : t.kind ≠ .newline) (h : Keeps .within depth (t :: ts)) :
    Tracks (keys .within depth (t :: ts)) .within depth (listElement stop t ts) := by
  by_cases hlayout : t.kind.isLayout = true
  · -- the end of a block: the text is cut off, and the list takes it for an element
    have hindent := h.not_indent
    have hdedent : t.kind = .dedent := by
      revert hlayout ht hindent
      cases t.kind <;> simp [SyntaxKind.isLayout]
    have hclosing := h.closing hdedent
    have hkeys : keys .within depth (t :: ts) = keys .within depth ts :=
      (keys_of_closing hclosing).trans (keys_of_closing hclosing.tail).symm
    have hts : Keeps .within depth ts := .inr hclosing.tail
    rw [listElement, if_neg (by rw [hdedent]; decide), hkeys]
    exact (hts.nothing.wrapFrom (by decide) t).report _ _
  · have hlayout : t.kind.isLayout = false := by simpa using hlayout
    rw [keys_within hlayout, listElement]
    split
    · exact tracks_scalar t (h.tail hlayout)
    · exact ((h.tail hlayout).nothing.wrapFrom (by decide) t).report _ _

theorem tracks_listElements (h : Keeps .within depth tokens) :
    Tracks (keys .within depth tokens) .within depth (listElements stop tokens) := by
  fun_induction listElements stop tokens with
  | case1 | case2 => exact h.nothing
  | case3 t ts hstop element spaced hrest =>
      have helement : Tracks _ .within depth element :=
        tracks_listElement (fun ht => hstop (.inr ht)) h
      exact (helement.append tracks_trivia).afterFirst t
  | case4 t ts hstop element spaced comma more hrest hkind space hlt ih =>
      have helement : Tracks _ .within depth element :=
        tracks_listElement (fun ht => hstop (.inr ht)) h
      have hspaced : Tracks (keys .within depth (t :: ts)) .within depth spaced :=
        helement.append tracks_trivia
      have hlayout : comma.kind.isLayout = false := by rw [hkind]; rfl
      refine (hspaced.followedBy hrest fun hleft => ?_).afterFirst t
      rw [keys_within hlayout]
      exact ((tracks_trivia (hleft.tail hlayout)).append ih).withLeaf comma
  | case5 t ts hstop element spaced comma more hrest hkind =>
      have helement : Tracks _ .within depth element :=
        tracks_listElement (fun ht => hstop (.inr ht)) h
      exact (helement.append tracks_trivia).afterFirst t

theorem tracks_closingBracket (h : Keeps .within depth tokens) :
    Tracks (keys .within depth tokens) .within depth (closingBracket stop tokens) := by
  cases tokens with
  | nil => exact h.nothing.report _ _
  | cons t ts =>
      rw [closingBracket]
      split
      · rename_i ht
        have hlayout : t.kind.isLayout = false := by rw [ht]; rfl
        rw [keys_within hlayout]
        exact (h.tail hlayout).nothing.withLeaf t
      · exact h.nothing.report _ _

theorem tracks_listBody (h : Keeps .within depth tokens) :
    Tracks (keys .within depth tokens) .within depth (listBody stop tokens) :=
  ((tracks_trivia h).append tracks_listElements).append tracks_closingBracket

theorem tracks_value (t : Token) (h : Keeps .within depth tokens) :
    Tracks (keys .within depth tokens) .within depth (value stop t tokens) := by
  by_cases ht : t.kind = .leftBracket
  · rw [value_list ht]
    exact (tracks_listBody h).wrapFrom (by decide) t
  · rw [value_scalar ht]
    exact tracks_scalar t h

theorem tracks_valueEnd (h : Keeps .within depth tokens) :
    Tracks (keys .within depth tokens) .front depth (valueEnd stop .never tokens).toReading := by
  have hspace := tracks_trivia h
  cases hts : (trivia tokens).rest with
  | nil =>
      rw [valueEnd_nil hts]
      exact hspace.atEnd (hts ▸ atEnd_nil)
  | cons t ts =>
      rw [valueEnd_cons hts]
      split
      · rename_i ht
        refine hspace.followedBy hts fun hleft => ?_
        rw [keys_newline ht]
        exact (hleft.of_newline ht).nothing.withLeaf t
      · split
        · rename_i ht
          exact hspace.atEnd (hts ▸ atEnd_cons (by rw [ht]; rfl))
        · split
          · rename_i ht
            have hleft := hspace.rest
            rw [hts] at hleft
            exact absurd ht hleft.not_indent
          · exact hspace.followedBy hts (tracks_recoverLine _)

/-- A value, and the end of its line. -/
theorem tracks_valueLine (ht : beginsValue t.kind = true) (h : Keeps .within depth (t :: ts)) :
    Tracks (keys .within depth (t :: ts)) .front depth ((value stop t ts).append
      (valueEnd stop .never (value stop t ts).rest).toReading) := by
  have hlayout := isLayout_of_beginsValue ht
  rw [keys_within hlayout]
  exact (tracks_value t (h.tail hlayout)).append tracks_valueEnd

/-! ## Properties and blocks -/

/-- The rules on these tokens track the keys. -/
structure TracksAt (stop : Nat) (tokens : List Token) : Prop where
  propertyValue : ∀ {depth}, Keeps .within depth tokens →
    Tracks (keys .within depth tokens) .front depth (propertyValue stop .never tokens).toReading
  property : ∀ {depth} {key : Token}, key.kind = .ident → Keeps .within depth tokens →
    Tracks (key :: keys .within depth tokens) .front depth
      (property stop .never key tokens).toReading
  itemProperties : ∀ {depth}, Keeps .front depth tokens →
    Tracks (keys .front depth tokens) .front depth (itemProperties stop .never tokens).toReading
  listItem : ∀ {depth} (dash : Token), Keeps .dash depth tokens →
    Tracks (keys .dash depth tokens) .front depth (listItem stop .never dash tokens).toReading
  members : ∀ {depth}, Keeps .front (depth + 1) tokens →
    Tracks (keys .front (depth + 1) tokens) .front depth (members stop .never tokens).toReading

section Step

variable (ih : ∀ shorter, shorter.length < tokens.length → TracksAt stop shorter)

include ih

theorem TracksAt.propertyValue_of (h : Keeps .within depth tokens) :
    Tracks (keys .within depth tokens) .front depth
      (Grammar.propertyValue stop .never tokens).toReading := by
  have hspace := tracks_trivia h
  cases hts : (trivia tokens).rest with
  | nil =>
      rw [propertyValue_nil hts]
      exact hspace.atEnd (hts ▸ atEnd_nil)
  | cons t ts =>
      have hlt := length_lt_of_rest hts
      by_cases ht : t.kind = .newline
      · rcases next_cases .indent (blank ts).rest with ⟨first, more, hmore, hfirst⟩ | hother
        · have hshorter : more.length < tokens.length := by
            have := length_lt_of_rest hmore
            omega
          rw [propertyValue_block hts ht hmore hfirst]
          refine hspace.followedBy hts fun hleft => ?_
          rw [keys_newline ht]
          refine Tracks.withLeaf ((tracks_blank (hleft.of_newline ht)).followedBy hmore
            fun hblock => ?_) t
          rw [keys_indent hfirst]
          exact (((ih more hshorter).members (hblock.of_indent hfirst)).wrapFrom
            (by decide) first).afterFirst first
        · rw [propertyValue_newline hts ht hother]
          refine hspace.followedBy hts fun hleft => ?_
          rw [keys_newline ht]
          exact (tracks_blank (hleft.of_newline ht)).withLeaf t
      · rw [propertyValue_inline hts ht]
        split
        · rename_i hbegins
          exact hspace.followedBy hts fun hleft => (tracks_valueLine hbegins hleft).afterFirst t
        · exact hspace.followedBy hts (tracks_recoverLine _)

theorem TracksAt.property_of {key : Token} (hkey : key.kind = .ident)
    (h : Keeps .within depth tokens) :
    Tracks (key :: keys .within depth tokens) .front depth
      (Grammar.property stop .never key tokens).toReading := by
  have hspace := tracks_trivia h
  rcases next_cases .colon (trivia tokens).rest with ⟨colon, more, hmore, hcolon⟩ | hother
  · have hlayout : colon.kind.isLayout = false := by rw [hcolon]; rfl
    rw [property_colon key hmore hcolon]
    refine Tracks.wrapProperty hkey (hspace.followedBy hmore fun hleft => ?_)
    rw [keys_within hlayout]
    exact ((ih more (length_lt_of_rest hmore)).propertyValue (hleft.tail hlayout)).withLeaf colon
  · rw [property_other key rfl hother]
    exact Tracks.wrapProperty hkey (hspace.followedBy rfl (tracks_recoverLine _))

theorem TracksAt.properties_of (hlt : ts.length < tokens.length) (ht : t.kind = .ident)
    (h : Keeps .within depth ts) :
    Tracks (t :: keys .within depth ts) .front depth (properties stop t ts) := by
  have hle := (Grammar.property stop .never t ts).rest_length_le
  exact ((ih ts hlt).property ht h).append (ih _ (by omega)).itemProperties

theorem TracksAt.itemProperties_of (h : Keeps .front depth tokens) :
    Tracks (keys .front depth tokens) .front depth
      (Grammar.itemProperties stop .never tokens).toReading := by
  have hspace := tracks_blank h
  rcases next_cases .ident (blank tokens).rest with ⟨t, ts, hts, ht⟩ | hother
  · rw [itemProperties_ident hts ht]
    refine hspace.followedBy hts fun hleft => ?_
    rw [keys_ident ht]
    exact (TracksAt.properties_of ih (length_lt_of_rest hts) ht
      (hleft.entered (.inl ht))).afterFirst t
  · rw [itemProperties_other hother]
    exact hspace

theorem TracksAt.listItem_of (dash : Token) (h : Keeps .dash depth tokens) :
    Tracks (keys .dash depth tokens) .front depth
      (Grammar.listItem stop .never dash tokens).toReading := by
  have hspace := tracks_trivia h
  cases hts : (trivia tokens).rest with
  | nil =>
      rw [listItem_nil dash hts]
      exact (hspace.atEnd (hts ▸ atEnd_nil)).wrapFrom (by decide) dash
  | cons t ts =>
      have htrivia := isTrivia_of_rest hts
      rw [listItem_cons dash hts]
      refine Tracks.wrapFrom (hspace.followedBy hts fun hleft => ?_) (by decide) dash
      have hline : Keeps .within depth (t :: ts) := hleft
      split
      · rename_i hkey
        have hkeys : keys .dash depth (t :: ts) = t :: keys .within depth ts := by
          rw [keys_word htrivia (by rw [hkey.1]; rfl)]
          simp [Spot.takes, Spot.behind, hkey]
        rw [hkeys]
        exact (TracksAt.properties_of ih (length_lt_of_rest hts) hkey.1
          (hline.entered (.inl hkey.1))).afterFirst t
      · rename_i hkey
        have hkeys : keys .dash depth (t :: ts) = keys .within depth (t :: ts) := by
          by_cases hlayout : t.kind.isLayout = true
          · exact (atEnd_cons hlayout).keys_eq .dash .within
          · have hlayout : t.kind.isLayout = false := by simpa using hlayout
            have htakes : Spot.dash.takes t ts = false := by
              simpa [Spot.takes] using hkey
            rw [keys_word htrivia hlayout, keys_within hlayout, htakes]
            simp [Spot.behind]
        rw [hkeys]
        split
        · rename_i hbegins
          exact (tracks_valueLine hbegins hline).afterFirst t
        · split
          · rename_i ht
            rw [keys_newline ht]
            exact ((hline.of_newline ht).nothing.withLeaf t).report _ _
          · exact tracks_recoverLine _ hline

end Step

/-- A line that begins with neither a key nor an item is set aside. -/
theorem tracks_unexpectedLine (h : Keeps .front depth tokens)
    (hts : (blank tokens).rest = t :: ts) (hindent : t.kind ≠ .indent)
    (hdedent : t.kind ≠ .dedent) (hident : t.kind ≠ .ident)
    (hdash : ¬(t.kind = .dash ∧ 0 < depth)) :
    Tracks (keys .front depth (t :: ts)) .front depth (errorFrom t ts) := by
  have hline := (tracks_blank h).rest
  rw [hts] at hline
  have hlayout := isLayout_of_rest_blank hts hindent hdedent
  have htrivia := isTrivia_of_rest_blank hts
  have hbehind : Spot.front.behind depth t = .within := if_neg fun h => hdash ⟨h.1, h.2.2⟩
  have hkeys : keys .front depth (t :: ts) = keys .within depth ts := by
    simp [keys_word htrivia hlayout, Spot.takes, hident, hbehind]
  rw [hkeys]
  exact tracks_errorFrom t (hline.somewhere.tail hlayout)

/-- A property that begins behind blank lines. -/
theorem TracksAt.keyLine (hat : TracksAt stop ts) (ht : t.kind = .ident)
    (h : Keeps .front depth (t :: ts)) :
    Tracks (keys .front depth (t :: ts)) .front depth
      (Grammar.property stop .never t ts).toReading := by
  rw [keys_ident ht]
  exact hat.property ht (h.entered (.inl ht))

/-- A block where none is expected. -/
theorem TracksAt.blockLine (hat : TracksAt stop ts) (ht : t.kind = .indent)
    (h : Keeps .front depth (t :: ts)) (message : String) (range : TextRange) :
    Tracks (keys .front depth (t :: ts)) .front depth
      ((((Grammar.members stop .never ts).toReading.wrapFrom .block t).wrap .error).report
        message range) := by
  rw [keys_indent ht]
  exact (((hat.members (h.of_indent ht)).wrapFrom (by decide) t).wrap (by decide)).report _ _

/-- One member of a block that is not closed by it. -/
theorem TracksAt.member (hat : TracksAt stop ts) (h : Keeps .front (depth + 1) tokens)
    (hts : (blank tokens).rest = t :: ts) (hdedent : t.kind ≠ .dedent) :
    Tracks (keys .front (depth + 1) (t :: ts)) .front (depth + 1) (Grammar.member stop t ts) := by
  have hline := (tracks_blank h).rest
  rw [hts] at hline
  unfold Grammar.member
  split
  · rename_i ht
    exact hat.keyLine ht hline
  · rename_i hident
    split
    · rename_i ht
      have hkeys : keys .front (depth + 1) (t :: ts) = keys .dash (depth + 1) ts := by
        rw [keys_word (by rw [ht]; rfl) (by rw [ht]; rfl)]
        simp [Spot.takes, Spot.behind, ht]
      rw [hkeys]
      exact hat.listItem t (hline.entered (.inr ht))
    · rename_i hdash
      split
      · rename_i ht
        exact hat.blockLine ht hline _ _
      · rename_i hindent
        exact (tracks_unexpectedLine h hts hindent hdedent hident
          fun h => hdash h.1).report _ _

theorem TracksAt.members_of (ih : ∀ shorter, shorter.length < tokens.length →
    TracksAt stop shorter) (h : Keeps .front (depth + 1) tokens) :
    Tracks (keys .front (depth + 1) tokens) .front depth
      (Grammar.members stop .never tokens).toReading := by
  have hspace := tracks_blank h
  cases hts : (blank tokens).rest with
  | nil =>
      rw [members_nil hts]
      exact hspace.ofNil hts
  | cons t ts =>
      have hlt := length_lt_of_rest hts
      by_cases ht : t.kind = .dedent
      · rw [members_dedent hts ht]
        refine hspace.followedBy hts fun hleft => ?_
        rw [keys_dedent ht]
        exact (hleft.of_dedent ht).nothing.withLeaf t
      · rw [members_cons hts ht]
        refine hspace.followedBy hts fun _ => Tracks.afterFirst ?_ t
        have hle := (Grammar.member stop t ts).rest_length_le
        exact ((ih ts hlt).member h hts ht).append (ih _ (by omega)).members

theorem tracksAt (stop : Nat) (tokens : List Token) : TracksAt stop tokens := by
  induction tokens using rules_induction with
  | step tokens ih =>
      exact ⟨TracksAt.propertyValue_of ih, TracksAt.property_of ih, TracksAt.itemProperties_of ih,
        TracksAt.listItem_of ih, TracksAt.members_of ih⟩

/-! ## Files -/

theorem tracks_fileMember (roots : Nat) (h : Keeps .front 0 tokens)
    (hts : (blank tokens).rest = t :: ts) :
    Tracks (keys .front 0 (t :: ts)) .front 0 (fileMember stop roots t ts) := by
  have hat := tracksAt stop ts
  have hline := (tracks_blank h).rest
  rw [hts] at hline
  unfold fileMember
  split
  · rename_i ht
    split
    · exact (hat.keyLine ht hline).report _ _
    · exact hat.keyLine ht hline
  · rename_i hident
    split
    · rename_i ht
      exact hat.blockLine ht hline _ _
    · rename_i hindent
      split
      · rename_i ht
        rw [keys_dedent ht]
        exact ⟨rfl, hline.of_dedent ht⟩
      · rename_i hdedent
        exact (tracks_unexpectedLine h hts hindent hdedent hident (by omega)).report _ _

theorem tracks_fileMembers (roots : Nat) (h : Keeps .front 0 tokens) :
    Tracks (keys .front 0 tokens) .front 0 (fileMembers stop .never roots tokens).toReading := by
  induction tokens using rules_induction generalizing roots with
  | step tokens ih =>
      have hspace := tracks_blank h
      cases hts : (blank tokens).rest with
      | nil =>
          rw [fileMembers_nil roots hts]
          exact hspace
      | cons t ts =>
          have hlt := length_lt_of_rest hts
          have hle := (fileMember stop roots t ts).rest_length_le
          rw [fileMembers_cons roots hts]
          refine hspace.followedBy hts fun _ => Tracks.afterFirst ?_ t
          exact (tracks_fileMember roots h hts).append (ih _ (by omega) _)

/-- The keys in the trees of a file are the keys among its tokens. -/
theorem allPropertyKeys_fileMembers (stop roots : Nat) (h : Keeps .front 0 tokens) :
    Tree.allPropertyKeys (fileMembers stop .never roots tokens).trees =
      (keys .front 0 tokens).map some := by
  have hfile : Tracks _ .front 0 (fileMembers stop .never roots tokens).toReading :=
    tracks_fileMembers roots h
  have hkeys := hfile.keys
  rw [(covers_fileMembers stop .never roots tokens).2] at hkeys
  simpa using hkeys.symm

end Grammar

end ModelWorkspace
