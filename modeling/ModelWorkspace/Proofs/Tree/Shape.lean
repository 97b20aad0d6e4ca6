import ModelWorkspace.Proofs.Tree.Rules

/-!
# The shape of trees

However broken a text is, what an outline looks at stands where the grammar puts it.  A property
begins with its key and has one value or one block at most; an item begins with its dash and has
either one value or properties; a comma stands between the elements of a list; a block holds
properties and items.  Everything else is a leaf or stands in an `error` node, and an outline
passes over both (`Tree.Shaped`).

Each rule makes trees of that shape; what is said of a rule besides is which parts it adds to the
node that it belongs to (`Reading.Makes`).
-/

namespace ModelWorkspace
namespace Tree

/-- An outline passes over the tree: a leaf, or what is set aside. -/
def isPlain : Tree → Bool
  | .leaf _ => true
  | .node kind _ => kind == .error

/-- The trees that an outline may look at. -/
def parts (ts : List Tree) : List Tree :=
  ts.filter fun t => !t.isPlain

/-- The tree is what may stand behind a key or a dash on the same line. -/
def IsValue (t : Tree) : Prop :=
  t.kind = .scalar ∨ t.kind = .listValue

/-- Between two parts stands a comma. -/
inductive Separated : List Tree → Prop
  | last {ts : List Tree} (single : (parts ts).length ≤ 1) : Separated ts
  | comma {ts us : List Tree} {comma : Token} (single : (parts ts).length ≤ 1)
      (separator : comma.kind = .comma) (behind : Separated us) :
      Separated (ts ++ .leaf comma :: us)

/-- What an outline looks at stands where the grammar puts it. -/
inductive Shaped : Tree → Prop
  | leaf (t : Token) : Shaped (.leaf t)
  | error (children : List Tree) : Shaped (.node .error children)
  | scalar {children : List Tree} {first : Token}
      (begun : (allLeaves children).head? = some first)
      (value : Grammar.beginsValue first.kind = true) : Shaped (.node .scalar children)
  | listValue {children : List Tree} {opening : Token} (opened : opening.kind = .leftBracket)
      (scalars : ∀ t ∈ parts children, t.kind = .scalar) (separated : Separated children)
      (nested : ∀ t ∈ children, Shaped t) :
      Shaped (.node .listValue (.leaf opening :: children))
  | property {children : List Tree} {key : Token} (named : key.kind = .ident)
      (content : parts children = [] ∨
        ∃ t, parts children = [t] ∧ (t.IsValue ∨ t.kind = .block))
      (nested : ∀ t ∈ children, Shaped t) : Shaped (.node .property (.leaf key :: children))
  | listItem {children : List Tree} {dash : Token} (marked : dash.kind = .dash)
      (content : (∃ t, parts children = [t] ∧ t.IsValue) ∨
        ∀ t ∈ parts children, t.kind = .property)
      (nested : ∀ t ∈ children, Shaped t) : Shaped (.node .listItem (.leaf dash :: children))
  | block {children : List Tree}
      (members : ∀ t ∈ parts children, t.kind = .property ∨ t.kind = .listItem)
      (nested : ∀ t ∈ children, Shaped t) : Shaped (.node .block children)

variable {ts us : List Tree}

theorem parts_append (ts us : List Tree) : parts (ts ++ us) = parts ts ++ parts us :=
  List.filter_append ts us

theorem parts_leaf (t : Token) (ts : List Tree) : parts (.leaf t :: ts) = parts ts := rfl

theorem Separated.behind (h : Separated us) (hts : parts ts = []) : Separated (ts ++ us) := by
  cases h with
  | last single =>
      refine .last ?_
      rw [parts_append, hts]
      exact single
  | @comma front _ _ single separator behind =>
      rw [← List.append_assoc]
      refine .comma ?_ separator behind
      rw [parts_append, hts]
      exact single

theorem Separated.append (h : Separated ts) (hus : parts us = []) : Separated (ts ++ us) := by
  induction h with
  | last single =>
      refine .last ?_
      rw [parts_append, hus, List.append_nil]
      exact single
  | comma single separator behind ih =>
      rw [List.append_assoc, List.cons_append]
      exact .comma single separator ih

end Tree

open ModelWorkspace.Tree (parts parts_append parts_leaf Separated)

namespace Reading

/-- A reading gives trees of the shape of the grammar, whose parts have a property. -/
structure Makes (P : List Tree → Prop) {tokens : List Token} (r : Reading tokens) : Prop where
  shaped : ∀ t ∈ r.trees, t.Shaped
  content : P (parts r.trees)

variable {P Q : List Tree → Prop} {tokens left : List Token} {r : Reading tokens}

theorem Makes.imp (h : r.Makes P) (hPQ : ∀ ts, P ts → Q ts) : r.Makes Q :=
  ⟨h.shaped, hPQ _ h.content⟩

theorem makes_nothing (tokens : List Token) : (Reading.nothing tokens).Makes (· = []) :=
  ⟨List.forall_mem_nil _, rfl⟩

theorem Makes.withLeaf (h : r.Makes P) (t : Token) : (r.withLeaf t).Makes P :=
  ⟨List.forall_mem_cons.mpr ⟨.leaf t, h.shaped⟩, h.content⟩

theorem Makes.report (h : r.Makes P) (message : String) (range : TextRange) :
    (r.report message range).Makes P :=
  ⟨h.shaped, h.content⟩

theorem Makes.afterFirst (h : r.Makes P) (t : Token) : (r.behind t).Makes P :=
  ⟨h.shaped, h.content⟩

theorem Makes.join {R : List Tree → Prop} (h : r.Makes P) {next : Reading r.rest}
    (hnext : next.Makes Q) (hjoin : ∀ ts us, P ts → Q us → R (ts ++ us)) :
    (r.append next).Makes R := by
  refine ⟨List.forall_mem_append.mpr ⟨h.shaped, hnext.shaped⟩, ?_⟩
  exact (parts_append r.trees next.trees).symm ▸ hjoin _ _ h.content hnext.content

/-- What is passed over adds no part behind others. -/
theorem Makes.append (h : r.Makes P) {next : Reading r.rest} (hnext : next.Makes (· = [])) :
    (r.append next).Makes P :=
  h.join hnext fun ts us hts hus => by rwa [hus, List.append_nil]

/-- What is passed over adds no part in front of others. -/
theorem Makes.followedBy (h : r.Makes (· = [])) (hleft : r.rest = left) {next : Reading left}
    (hnext : next.Makes P) : (r.followedBy hleft next).Makes P := by
  subst hleft
  exact h.join hnext fun ts us hts hus => by rwa [hts]

/-- What is passed over adds nothing that is asked of. -/
theorem Makes.trivially {p : Tree → Prop} (h : r.Makes (· = [])) : r.Makes (∀ t ∈ ·, p t) := by
  refine h.imp ?_
  rintro _ rfl
  exact List.forall_mem_nil _

/-- What is set aside is no part. -/
theorem makes_error (h : ∃ children, r.trees = [.node .error children]) : r.Makes (· = []) := by
  obtain ⟨children, hset⟩ := h
  constructor
  · rw [hset]
    exact List.forall_mem_singleton.mpr (.error children)
  · rw [hset]
    rfl

theorem makes_node {kind : SyntaxKind} {children : List Tree}
    (htrees : r.trees = [.node kind children]) (hshaped : (Tree.node kind children).Shaped)
    (hkind : kind ≠ .error) : r.Makes (∃ t, · = [t] ∧ t.kind = kind) := by
  constructor
  · rw [htrees]
    exact List.forall_mem_singleton.mpr hshaped
  · refine ⟨.node kind children, ?_, rfl⟩
    rw [htrees]
    simp [parts, Tree.isPlain, hkind]

end Reading

namespace Grammar

open Reading

variable {stop : Nat} {tokens ts : List Token} {t : Token}

/-! ## Rules without blocks -/

theorem makes_skip (passes : SyntaxKind → Bool) (tokens : List Token) :
    (skip passes tokens).Makes (· = []) :=
  skip_induction (P := fun _ r => r.Makes (· = [])) makes_nothing
    (fun t _ _ _ hr => hr.withLeaf t) tokens

theorem makes_lineEnd (tokens : List Token) : (lineEnd tokens).Makes (· = []) := by
  cases tokens with
  | nil => exact makes_nothing []
  | cons t ts =>
      rw [lineEnd]
      split
      · exact (makes_nothing ts).withLeaf t
      · exact makes_nothing _

theorem makes_recoverLine (message : String) (tokens : List Token) :
    (recoverLine stop message tokens).Makes (· = []) := by
  refine Makes.append (makes_error ?_) (makes_lineEnd _)
  cases tokens with
  | nil => exact ⟨[], rfl⟩
  | cons t ts =>
      unfold recover
      dsimp only
      split
      · exact ⟨_, rfl⟩
      · split <;> exact ⟨_, rfl⟩

theorem makes_scalar {first : Token} (hfirst : beginsValue first.kind = true)
    (tokens : List Token) : (scalar stop first tokens).Makes (∃ t, · = [t] ∧ t.kind = .scalar) := by
  unfold scalar
  split
  · exact makes_node rfl (.scalar rfl hfirst) (by decide)
  · exact makes_node rfl (.scalar rfl hfirst) (by decide)

theorem makes_listElement (first : Token) (tokens : List Token) :
    (listElement stop first tokens).Makes
      fun ts => ts.length ≤ 1 ∧ ∀ t ∈ ts, t.kind = .scalar := by
  unfold listElement
  split
  · rename_i hfirst
    refine (makes_scalar (Bool.and_eq_true_iff.mp hfirst).1 tokens).imp ?_
    rintro ts ⟨t, rfl, ht⟩
    exact ⟨Nat.le_refl 1, List.forall_mem_singleton.mpr ht⟩
  · refine Makes.report (Makes.imp (makes_error ⟨_, rfl⟩) ?_) _ _
    rintro ts rfl
    exact ⟨Nat.zero_le 1, List.forall_mem_nil _⟩

/-- Trees are what may stand between the brackets of a list. -/
structure AreElements (ts : List Tree) : Prop where
  shaped : ∀ t ∈ ts, t.Shaped
  scalars : ∀ t ∈ parts ts, t.kind = .scalar
  separated : Separated ts

theorem AreElements.behind {ts us : List Tree} (h : AreElements us) (hts : ∀ t ∈ ts, t.Shaped)
    (hnone : parts ts = []) : AreElements (ts ++ us) where
  shaped := List.forall_mem_append.mpr ⟨hts, h.shaped⟩
  scalars := by
    rw [parts_append, hnone]
    exact h.scalars
  separated := h.separated.behind hnone

theorem AreElements.append {ts us : List Tree} (h : AreElements ts) (hus : ∀ t ∈ us, t.Shaped)
    (hnone : parts us = []) : AreElements (ts ++ us) where
  shaped := List.forall_mem_append.mpr ⟨h.shaped, hus⟩
  scalars := by
    rw [parts_append, hnone, List.append_nil]
    exact h.scalars
  separated := h.separated.append hnone

theorem makes_trivia (tokens : List Token) : (trivia tokens).Makes (· = []) :=
  makes_skip _ tokens

theorem makes_blank (tokens : List Token) : (blank tokens).Makes (· = []) :=
  makes_skip _ tokens

theorem makes_spacedElement (first : Token) (tokens : List Token) :
    (spacedElement stop first tokens).Makes
      fun ts => ts.length ≤ 1 ∧ ∀ t ∈ ts, t.kind = .scalar :=
  (makes_listElement first tokens).append (makes_trivia _)

theorem areElements_listElements (tokens : List Token) :
    AreElements (listElements stop tokens).trees := by
  have hnothing : AreElements [] :=
    ⟨List.forall_mem_nil _, List.forall_mem_nil _, .last (Nat.zero_le 1)⟩
  induction tokens using rules_induction with
  | step tokens ih =>
      cases tokens with
      | nil => rwa [listElements_nil]
      | cons t ts =>
          by_cases ht : t.kind = .rightBracket ∨ t.kind = .newline
          · rwa [listElements_stop ht]
          · obtain ⟨hshaped, hlength, hscalars⟩ := @makes_spacedElement stop t ts
            have hlast : AreElements (spacedElement stop t ts).trees :=
              ⟨hshaped, hscalars, .last hlength⟩
            cases hmore : (spacedElement stop t ts).rest with
            | nil =>
                rw [listElements_last ht (head_ne_of_nil hmore)]
                exact hlast
            | cons comma more =>
                by_cases hcomma : comma.kind = .comma
                · have hle := (spacedElement stop t ts).rest_length_le
                  have hle' := (trivia more).rest_length_le
                  have hothers := ih (trivia more).rest (by
                    rw [hmore] at hle
                    simp only [List.length_cons] at hle ⊢
                    omega)
                  have hspace := makes_trivia more
                  obtain ⟨hshaped', hscalars', hseparated⟩ :=
                    hothers.behind hspace.shaped hspace.content
                  rw [listElements_comma ht hmore hcomma]
                  refine ⟨List.forall_mem_append.mpr
                    ⟨hshaped, List.forall_mem_cons.mpr ⟨.leaf comma, hshaped'⟩⟩, ?_,
                    .comma hlength hcomma hseparated⟩
                  show ∀ u ∈ parts ((spacedElement stop t ts).trees ++ .leaf comma :: _), _
                  rw [parts_append]
                  exact List.forall_mem_append.mpr ⟨hscalars, hscalars'⟩
                · rw [listElements_last ht (head_ne_of_cons hmore hcomma)]
                  exact hlast

theorem makes_closingBracket (tokens : List Token) :
    (closingBracket stop tokens).Makes (· = []) := by
  cases tokens with
  | nil => exact (makes_nothing []).report _ _
  | cons t ts =>
      rw [closingBracket]
      split
      · exact (makes_nothing ts).withLeaf t
      · exact (makes_nothing _).report _ _

theorem areElements_listBody (tokens : List Token) : AreElements (listBody stop tokens).trees := by
  have hspace := makes_trivia tokens
  have hclosing := @makes_closingBracket stop
    ((trivia tokens).append (listElements stop (trivia tokens).rest)).rest
  have helements := (@areElements_listElements stop (trivia tokens).rest).behind
    hspace.shaped hspace.content
  exact helements.append hclosing.shaped hclosing.content

/-- A value is one part of the node that it belongs to. -/
theorem makes_value {first : Token} (hfirst : beginsValue first.kind = true)
    (tokens : List Token) : (value stop first tokens).Makes (∃ t, · = [t] ∧ t.IsValue) := by
  by_cases hlist : first.kind = .leftBracket
  · obtain ⟨hshaped, hscalars, hseparated⟩ := @areElements_listBody stop tokens
    rw [value_list hlist]
    refine (makes_node rfl (.listValue hlist hscalars hseparated hshaped) (by decide)).imp ?_
    rintro ts ⟨t, rfl, ht⟩
    exact ⟨t, rfl, .inr ht⟩
  · rw [value_scalar hlist]
    refine (makes_scalar hfirst tokens).imp ?_
    rintro ts ⟨t, rfl, ht⟩
    exact ⟨t, rfl, .inl ht⟩

/-! ## Properties and blocks -/

theorem makes_valueEnd (tokens : List Token) :
    (valueEnd stop .never tokens).toReading.Makes (· = []) := by
  have hspace := makes_trivia tokens
  cases hmore : (trivia tokens).rest with
  | nil =>
      rw [valueEnd_nil hmore]
      exact hspace
  | cons t more =>
      rw [valueEnd_cons hmore]
      split
      · exact hspace.followedBy hmore ((makes_nothing more).withLeaf t)
      · split
        · exact hspace
        · split
          · exact hspace.followedBy hmore (((makes_error ⟨_, rfl⟩).afterFirst t).report _ _)
          · exact hspace.followedBy hmore (makes_recoverLine _ _)

/-- A value and the end of its line. -/
theorem makes_line (ht : beginsValue t.kind = true) (ts : List Token) :
    ((value stop t ts).append
      (valueEnd stop .never (value stop t ts).rest).toReading).Makes (∃ u, · = [u] ∧ u.IsValue) :=
  (makes_value ht ts).append (makes_valueEnd _)

/-- What a property may hold: nothing, a value or a block. -/
def IsContent (ts : List Tree) : Prop :=
  ts = [] ∨ ∃ t, ts = [t] ∧ (t.IsValue ∨ t.kind = .block)

/-- What the rules for properties and blocks make of these tokens. -/
structure MakesAt (stop : Nat) (tokens : List Token) : Prop where
  propertyValue : (propertyValue stop .never tokens).toReading.Makes IsContent
  property : ∀ key : Token, key.kind = .ident →
    (property stop .never key tokens).toReading.Makes (∃ t, · = [t] ∧ t.kind = .property)
  itemProperties : (itemProperties stop .never tokens).toReading.Makes
    (∀ t ∈ ·, t.kind = .property)
  listItem : ∀ dash : Token, dash.kind = .dash →
    (listItem stop .never dash tokens).toReading.Makes (∃ t, · = [t] ∧ t.kind = .listItem)
  members : (members stop .never tokens).toReading.Makes
    (∀ t ∈ ·, t.kind = .property ∨ t.kind = .listItem)

namespace MakesAt

variable (ih : ∀ shorter, shorter.length < tokens.length → MakesAt stop shorter)
include ih

theorem propertyValue_of : (Grammar.propertyValue stop .never tokens).toReading.Makes IsContent := by
  have hspace := makes_trivia tokens
  cases hmore : (trivia tokens).rest with
  | nil =>
      rw [propertyValue_nil hmore]
      exact hspace.imp fun _ => .inl
  | cons t more =>
      by_cases ht : t.kind = .newline
      · have hlines := makes_blank more
        rcases next_cases .indent (blank more).rest with ⟨first, block, hfirst, hindent⟩ | hother
        · have hlt := length_lt_of_rest hmore
          have hlt' := length_lt_of_rest hfirst
          obtain ⟨hshaped, hmembers⟩ := (ih block (by omega)).members
          have hblock : ((Grammar.members stop .never block).wrapFrom .block first).Makes
              IsContent := by
            refine (makes_node rfl (.block ?_ (List.forall_mem_cons.mpr ⟨.leaf first, hshaped⟩))
              (by decide)).imp ?_
            · exact parts_leaf first _ ▸ hmembers
            · rintro ts ⟨t, rfl, ht⟩
              exact .inr ⟨t, rfl, .inr ht⟩
          rw [propertyValue_block hmore ht hfirst hindent]
          exact hspace.followedBy hmore
            ((hlines.followedBy hfirst (hblock.afterFirst first)).withLeaf t)
        · rw [propertyValue_newline hmore ht hother]
          exact (hspace.followedBy hmore (hlines.withLeaf t)).imp fun _ => .inl
      · rw [propertyValue_inline hmore ht]
        split
        · rename_i hbegins
          refine hspace.followedBy hmore (Makes.afterFirst ?_ t)
          refine (makes_line hbegins more).imp ?_
          rintro ts ⟨t, rfl, ht⟩
          exact .inr ⟨t, rfl, .inl ht⟩
        · exact (hspace.followedBy hmore (makes_recoverLine _ _)).imp fun _ => .inl

theorem property_of {key : Token} (hkey : key.kind = .ident) :
    (Grammar.property stop .never key tokens).toReading.Makes
      (∃ t, · = [t] ∧ t.kind = .property) := by
  have hspace := makes_trivia tokens
  have hproperty : ∀ {r : Reading tokens}, r.Makes IsContent →
      (r.wrapFrom .property key).Makes (∃ t, · = [t] ∧ t.kind = .property) := fun h =>
    makes_node rfl (.property hkey h.content h.shaped) (by decide)
  rcases next_cases .colon (trivia tokens).rest with ⟨t, more, hmore, ht⟩ | hother
  · have hvalue := (ih more (length_lt_of_rest hmore)).propertyValue
    rw [property_colon key hmore ht]
    exact hproperty (hspace.followedBy hmore (hvalue.withLeaf t))
  · rw [property_other key rfl hother]
    exact hproperty ((hspace.followedBy rfl (makes_recoverLine _ _)).imp fun _ => .inl)

/-- A property and the further properties of an item. -/
theorem properties (hts : ts.length < tokens.length) {key : Token} (hkey : key.kind = .ident) :
    (Grammar.properties stop key ts).Makes (∀ t ∈ ·, t.kind = .property) := by
  have hfirst := (ih ts hts).property key hkey
  have hle := (Grammar.property stop .never key ts).rest_length_le
  refine hfirst.join (ih _ (by omega)).itemProperties ?_
  rintro _ us ⟨t, rfl, ht⟩ hus
  exact List.forall_mem_cons.mpr ⟨ht, hus⟩

theorem itemProperties_of :
    (Grammar.itemProperties stop .never tokens).toReading.Makes (∀ t ∈ ·, t.kind = .property) := by
  have hspace := makes_blank tokens
  rcases next_cases .ident (blank tokens).rest with ⟨t, more, hmore, ht⟩ | hother
  · rw [itemProperties_ident hmore ht]
    exact hspace.followedBy hmore ((properties ih (length_lt_of_rest hmore) ht).afterFirst t)
  · rw [itemProperties_other hother]
    exact hspace.trivially

theorem listItem_of {dash : Token} (hdash : dash.kind = .dash) :
    (Grammar.listItem stop .never dash tokens).toReading.Makes
      (∃ t, · = [t] ∧ t.kind = .listItem) := by
  have hspace := makes_trivia tokens
  have hitem : ∀ {r : Reading tokens}, r.Makes (fun ts => (∃ t, ts = [t] ∧ t.IsValue) ∨
      ∀ t ∈ ts, t.kind = .property) →
      (r.wrapFrom .listItem dash).Makes (∃ t, · = [t] ∧ t.kind = .listItem) := fun h =>
    makes_node rfl (.listItem hdash h.content h.shaped) (by decide)
  have hnone : ∀ {r : Reading tokens}, r.Makes (· = []) →
      (r.wrapFrom .listItem dash).Makes (∃ t, · = [t] ∧ t.kind = .listItem) := fun h =>
    hitem (h.trivially.imp fun _ => .inr)
  cases hmore : (trivia tokens).rest with
  | nil =>
      rw [listItem_nil dash hmore]
      exact hnone hspace
  | cons t more =>
      rw [listItem_cons dash hmore]
      split
      · rename_i hkey
        have hproperties := properties ih (length_lt_of_rest hmore) hkey.1
        exact hitem (hspace.followedBy hmore ((hproperties.imp fun _ => .inr).afterFirst t))
      · split
        · rename_i hbegins
          have hline := @makes_line stop t hbegins more
          exact hitem (hspace.followedBy hmore ((hline.imp fun _ => .inl).afterFirst t))
        · split
          · exact hnone (hspace.followedBy hmore (((makes_nothing more).withLeaf t).report _ _))
          · exact hnone (hspace.followedBy hmore (makes_recoverLine _ _))

theorem member (hts : ts.length < tokens.length) (t : Token) :
    (Grammar.member stop t ts).Makes (∀ u ∈ ·, u.kind = .property ∨ u.kind = .listItem) := by
  have hrules := ih ts hts
  rw [Grammar.member]
  split
  · rename_i hkey
    refine (hrules.property t hkey).imp ?_
    rintro _ ⟨u, rfl, hu⟩
    exact List.forall_mem_singleton.mpr (.inl hu)
  · split
    · rename_i hdash
      refine (hrules.listItem t hdash).imp ?_
      rintro _ ⟨u, rfl, hu⟩
      exact List.forall_mem_singleton.mpr (.inr hu)
    · split <;> exact (makes_error ⟨_, rfl⟩).trivially.report _ _

theorem members_of : (Grammar.members stop .never tokens).toReading.Makes
    (∀ t ∈ ·, t.kind = .property ∨ t.kind = .listItem) := by
  have hspace := makes_blank tokens
  cases hmore : (blank tokens).rest with
  | nil =>
      rw [members_nil hmore]
      exact hspace.trivially
  | cons t more =>
      by_cases ht : t.kind = .dedent
      · rw [members_dedent hmore ht]
        exact (hspace.followedBy hmore ((makes_nothing more).withLeaf t)).trivially
      · have hlt := length_lt_of_rest hmore
        have hfirst := member ih hlt t
        have hle := (Grammar.member stop t more).rest_length_le
        rw [members_cons hmore ht]
        refine hspace.followedBy hmore (Makes.afterFirst ?_ t)
        exact hfirst.join (ih _ (by omega)).members fun _ _ hts hus =>
          List.forall_mem_append.mpr ⟨hts, hus⟩

end MakesAt

theorem makesAt (stop : Nat) (tokens : List Token) : MakesAt stop tokens := by
  induction tokens using rules_induction with
  | step tokens ih =>
      exact ⟨MakesAt.propertyValue_of ih, fun _ => MakesAt.property_of ih,
        MakesAt.itemProperties_of ih, fun _ => MakesAt.listItem_of ih, MakesAt.members_of ih⟩

/-! ## Files -/

theorem makes_fileMember (roots : Nat) (t : Token) (ts : List Token) :
    (fileMember stop roots t ts).Makes (∀ u ∈ ·, u.kind = .property) := by
  rw [fileMember]
  split
  · rename_i hkey
    have hroot : (property stop .never t ts).toReading.Makes (∀ u ∈ ·, u.kind = .property) := by
      refine ((makesAt stop ts).property t hkey).imp ?_
      rintro _ ⟨u, rfl, hu⟩
      exact List.forall_mem_singleton.mpr hu
    split
    · exact hroot.report _ _
    · exact hroot
  · split
    · exact (makes_error ⟨_, rfl⟩).trivially.report _ _
    · split
      · refine ⟨List.forall_mem_cons.mpr ⟨.error [], List.forall_mem_singleton.mpr (.leaf t)⟩, ?_⟩
        exact List.forall_mem_nil _
      · exact (makes_error ⟨_, rfl⟩).trivially.report _ _

/-- What a file holds has the shape of the grammar, and its parts are properties. -/
theorem makes_fileMembers (roots : Nat) (tokens : List Token) :
    (fileMembers stop .never roots tokens).toReading.Makes (∀ t ∈ ·, t.kind = .property) := by
  induction tokens using rules_induction generalizing roots with
  | step tokens ih =>
      have hspace := makes_blank tokens
      cases hmore : (blank tokens).rest with
      | nil =>
          rw [fileMembers_nil roots hmore]
          exact hspace.trivially
      | cons t more =>
          have hlt := length_lt_of_rest hmore
          have hfirst := @makes_fileMember stop roots t more
          have hle := (fileMember stop roots t more).rest_length_le
          rw [fileMembers_cons roots hmore]
          refine hspace.followedBy hmore (Makes.afterFirst ?_ t)
          exact hfirst.join (ih _ (by omega) _) fun _ _ hts hus =>
            List.forall_mem_append.mpr ⟨hts, hus⟩

end Grammar
end ModelWorkspace
