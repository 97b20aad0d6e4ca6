import Mathlib
import ModelWorkspace.Json.Reader
import ModelWorkspace.Proofs.Json.Reads

/-!
# Reading the containers that were written

`ReadsValue r w a` says that the reader `r` reads the text `w` of a value as `a`.  Arrays,
pairs and records that the printer writes are read if their elements are
(`reads_array`, `reads_pair`, `Record.reads_object`); what a record is made of is the chain
of states that its fields run through (`Record.Fills`).  A text that holds nothing but a
value is read as that value (`read_eq_ok`).
-/

namespace ModelWorkspace
namespace Json

open Reader

/-- The first character of a value other than `null`. -/
def Opens (w : List Char) : Prop :=
  ∃ c cs, w = c :: cs ∧ isSpace c = false ∧ c ≠ ']' ∧ c ≠ 'n'

/-- A reader gives a value for a text that stands where a value may. -/
structure ReadsValue {α : Type} (r : Reader α) (w : List Char) (a : α) : Prop where
  opens : Opens w
  reads : Reads Delimited r w a

section

variable {α β : Type} {P : List Char → Prop} {c : Char} {cs w v : List Char} {a : α} {b : β}

theorem Opens.append (h : Opens w) (v : List Char) : Opens (w ++ v) := by
  obtain ⟨c, cs, rfl, hc⟩ := h
  exact ⟨c, cs ++ v, rfl, hc⟩

/-- A reader that goes on with the first character of a value. -/
theorem Reads.afterValueStart {f : Char → Reader β} (hc : isSpace c = false)
    (h : Reads P (f c) (c :: cs) b) : Reads P (valueStart >>= f) (c :: cs) b := by
  have hstart : Reads (StartsWith c) valueStart [] c :=
    (reads_peekToken hc).bind (Reads.pure c) fun _ hrest => hrest
  exact hstart.bind h fun rest _ => startsWith_cons c (cs ++ rest)

/-! ## Strings, numbers and names -/

theorem opens_quote (s : String) : Opens (quote s).toList := by
  rw [toList_quote]
  exact ⟨'"', _, rfl, by decide, by decide, by decide⟩

theorem reads_text (s expected : String) :
    ReadsValue (text expected) (quote s).toList s where
  opens := opens_quote s
  reads := by
    have hread := (reads_quoted s).mono (Q := Delimited) fun _ _ => trivial
    rw [toList_quote] at hread ⊢
    refine Reads.afterValueStart (by decide) ?_
    rw [if_pos rfl]
    exact hread

theorem reads_natural {n limit : Nat} (hn : n ≤ limit) (hlimit : limit ≤ maxNatural)
    (expected : String) : ReadsValue (natural limit expected) (toString n).toList n := by
  obtain ⟨first, others, hdigits⟩ := List.exists_cons_of_ne_nil
    (Nat.toDigits_ne_nil : Nat.toDigits 10 n ≠ [])
  have hfirst : first.isDigit = true :=
    Nat.isDigit_of_mem_toDigits (by decide) (by decide) (hdigits ▸ List.mem_cons_self)
  have hread := reads_number (Nat.le_trans hn hlimit)
  rw [Nat.toString_eq_repr, Nat.toList_repr, hdigits] at hread ⊢
  -- the first digit is none of the characters that have a meaning of their own
  have hne : ∀ c : Char, c.isDigit = false → first ≠ c := by
    rintro c hc rfl
    rw [hc] at hfirst
    cases hfirst
  have hspace : isSpace first = false := by
    unfold isSpace
    simp only [Bool.or_eq_false_iff, beq_eq_false_iff_ne]
    exact ⟨⟨⟨hne ' ' rfl, hne '\n' rfl⟩, hne '\t' rfl⟩, hne '\r' rfl⟩
  refine ⟨⟨first, others, rfl, hspace, hne ']' rfl, hne 'n' rfl⟩, ?_⟩
  refine Reads.afterValueStart hspace ?_
  have hminus : first ≠ '-' := hne '-' rfl
  rw [if_pos (Or.inr hfirst)]
  dsimp only
  rw [if_neg hminus, decide_eq_true hminus]
  refine hread.bind_nil ?_
  dsimp only
  rw [if_pos hn]
  exact Reads.pure n

/-- A name out of a closed set. -/
theorem reads_variant {parse? : String → Option α} {name : String} (h : parse? name = some a)
    (depth : Nat) (expected : String) :
    ReadsValue (variant depth parse? expected) (quote name).toList a where
  opens := opens_quote name
  reads := by
    have hname : Reads Delimited (variantName parse? expected) (quote name).toList a := by
      unfold variantName
      refine (reads_text name "variant identifier").reads.bind_nil ?_
      rw [h]
      exact Reads.pure a
    rw [toList_quote] at hname ⊢
    exact Reads.afterValueStart (by decide) hname

/-- A value that may be `null`. -/
theorem reads_optional {r : Reader α} {write : α → String} {o : Option α}
    (h : ∀ a, o = some a → ReadsValue r (write a).toList a) :
    Reads Delimited (optional r) (optionText write o).toList o := by
  cases o with
  | none =>
      have hnull := ((reads_word ['n', 'u', 'l', 'l']).map fun _ => (none : Option α)).mono
        (Q := Delimited) fun _ _ => trivial
      have hwritten : (optionText write none).toList = ['n', 'u', 'l', 'l'] := by
        rw [optionText]
        decide
      rw [hwritten]
      refine Reads.afterPeekToken (by decide) ?_
      rw [if_pos rfl]
      exact hnull
  | some a =>
      obtain ⟨⟨c, cs, hw, hspace, -, hnull⟩, hread⟩ := h a rfl
      have hsome := hread.map some
      rw [hw] at hsome
      rw [optionText, hw]
      refine Reads.afterPeekToken hspace ?_
      rw [if_neg fun hc => hnull (Option.some.inj hc)]
      exact hsome

/-! ## Brackets, commas and colons -/

/-- Only the first element or entry stands without a comma. -/
def comma (first : Bool) : List Char :=
  if first then [] else [',']

theorem reads_closeArray : Reads Anything closeArray [']'] () := by
  refine Reads.afterPeekToken (by decide) ?_
  exact reads_skipChar ']'

theorem reads_closeObject : Reads Anything closeObject ['\x7d'] () := by
  refine Reads.afterPeekToken (by decide) ?_
  exact reads_skipChar '\x7d'

theorem reads_colon : Reads Anything colon [':'] () := by
  refine Reads.afterPeekToken (by decide) ?_
  exact reads_skipChar ':'

/-- Unless the bracket comes next, an element does. -/
theorem reads_unlessClosed (hspace : isSpace c = false) (hc : c ≠ ']')
    (closed missing : Reader Bool) :
    Reads (StartsWith c) (do
      match ← peekToken with
      | some ']' => closed
      | some _ => return true
      | none => missing) [] true := by
  refine (reads_peekToken hspace).bind_nil ?_
  split
  · rename_i heq
    cases heq
    exact absurd rfl hc
  · exact Reads.pure true
  · rename_i heq
    cases heq

theorem reads_hasElement (first : Bool) (hspace : isSpace c = false) (hc : c ≠ ']') :
    Reads (StartsWith c) (hasElement first) (comma first) true := by
  cases first with
  | true => exact reads_unlessClosed hspace hc (pure false) (failNext .endInArray)
  | false =>
      -- the element stands behind the comma, not behind what is taken here
      refine Reads.afterPeekToken (by decide) ?_
      refine (reads_skipChar ',').andThen (v := []) ?_
      exact reads_unlessClosed hspace hc (failNext .commaAtEnd) (failNext .endInValue)

theorem reads_hasElement_end (first : Bool) :
    Reads (StartsWith ']') (hasElement first) [] false :=
  (reads_peekToken (by decide)).bind_nil (Reads.pure false)

theorem reads_key (first : Bool) (name : String) :
    Reads Anything (key? first) (comma first ++ (quote name).toList) (some name) := by
  have hname := (reads_quoted name).map some
  rw [toList_quote] at hname ⊢
  cases first with
  | true =>
      refine Reads.afterPeekToken (by decide) ?_
      exact hname
  | false =>
      refine Reads.afterPeekToken (by decide) ?_
      refine (reads_skipChar ',').andThen (v := '"' :: _) ?_
      refine Reads.afterPeekToken (by decide) ?_
      exact hname

theorem reads_key_end (first : Bool) :
    Reads (StartsWith '\x7d') (key? first) [] none :=
  (reads_peekToken (by decide)).bind_nil (Reads.pure none)

/-- What a reader gives for the text in front of it. -/
theorem Reads.outcome {r : Reader α} (h : Reads P r w a) :
    Reads P (Reader.outcome r) w (.ok a) := by
  intro rest place size hrest hsize
  obtain ⟨place', hread⟩ := h rest place size hrest hsize
  refine ⟨place', ?_⟩
  show (Except.ok (r.start _).1, (r.start _).2) = _
  rw [hread]

/-- A body between its brackets. -/
theorem reads_inside {depth : Nat} {body : Reader α} {close : Reader Unit} (c : Char)
    (hdepth : 0 < depth) (hbody : Reads P body w a) (hclose : Reads Anything close v ())
    (hv : ∀ rest, P (v ++ rest)) :
    Reads Anything (inside depth body close) (c :: (w ++ v)) a := by
  unfold inside
  rw [if_neg (Nat.ne_of_gt hdepth)]
  refine (reads_skipChar c).andThen (v := w ++ v) ?_
  refine hbody.outcome.bind ?_ fun rest _ => hv rest
  refine hclose.outcome.bind_nil ?_
  exact Reads.pure a

/-! ## Arrays and pairs -/

/-- What is written between the brackets of an array or object. -/
def separated (first : Bool) : List (List Char) → List Char
  | [] => []
  | w :: ws => comma first ++ w ++ separated false ws

theorem intercalate_cons_eq (w : List Char) (ws : List (List Char)) :
    List.intercalate [','] (w :: ws) = w ++ separated false ws := by
  induction ws generalizing w with
  | nil =>
      rw [List.intercalate_singleton]
      exact (List.append_nil w).symm
  | cons v vs ih =>
      rw [List.intercalate_cons_cons, ih v]
      exact List.append_assoc w [','] _

theorem toList_intercalate_comma (values : List String) :
    (",".intercalate values).toList = separated true (values.map String.toList) := by
  rw [String.toList_intercalate]
  cases values with
  | nil => rfl
  | cons value values => exact intercalate_cons_eq value.toList _

theorem toList_arrayText (values : List String) :
    (arrayText values).toList = '[' :: (separated true (values.map String.toList) ++ [']']) := by
  unfold arrayText
  rw [String.toList_append, String.toList_append, toList_intercalate_comma]
  rfl

/-- Behind what stands between brackets the next value is delimited: a comma or the
bracket comes. -/
theorem delimited_separated {close : Char} (hclose : close = ']' ∨ close = '\x7d')
    (ws : List (List Char)) {rest : List Char} (hrest : StartsWith close rest) :
    Delimited (separated false ws ++ rest) := by
  intro c hc
  cases ws with
  | nil =>
      have heq : close = c := Option.some.inj (hrest.symm.trans hc)
      rw [← heq]
      exact Or.inr hclose
  | cons w ws =>
      have heq : ',' = c := Option.some.inj hc
      exact Or.inl heq.symm

/-- The elements of an array are read up to its bracket. -/
theorem reads_elements {r : Reader α} {write : α → String} {as : List α}
    (h : ∀ a ∈ as, ReadsValue r (write a).toList a) {fuel : Nat} (first : Bool)
    (hfuel : as.length < fuel) :
    Reads (StartsWith ']') (elements r fuel first)
      (separated first ((as.map write).map String.toList)) as := by
  induction as generalizing fuel first with
  | nil =>
      obtain ⟨fuel, rfl⟩ := Nat.exists_eq_succ_of_ne_zero (Nat.ne_of_gt hfuel)
      exact (reads_hasElement_end first).bind_nil (Reads.pure [])
  | cons a as ih =>
      cases fuel with
      | zero => cases hfuel
      | succ fuel =>
          obtain ⟨⟨c, cs, hw, hspace, hbracket, -⟩, hread⟩ := h a List.mem_cons_self
          have hothers := ih (fun b hb => h b (List.mem_cons_of_mem a hb)) false
            (Nat.lt_of_succ_lt_succ hfuel)
          rw [List.map_cons, List.map_cons, separated, List.append_assoc]
          refine (reads_hasElement first hspace hbracket).bind ?_ fun rest _ => ?_
          · exact hread.bind (hothers.map (a :: ·)) fun rest hrest =>
              delimited_separated (Or.inl rfl) _ hrest
          · rw [hw]
            exact startsWith_cons c _

/-- There are no more elements than characters. -/
theorem length_le_separated {ws : List (List Char)} (h : ∀ w ∈ ws, Opens w) (first : Bool) :
    ws.length ≤ (separated first ws).length := by
  induction ws generalizing first with
  | nil => exact Nat.zero_le _
  | cons w ws ih =>
      obtain ⟨c, cs, rfl, -⟩ := h w List.mem_cons_self
      have hle := ih (fun v hv => h v (List.mem_cons_of_mem _ hv)) false
      rw [separated, List.length_append, List.length_append, List.length_cons, List.length_cons]
      omega

/-- What stands between the brackets of an array is read by a body of any shape. -/
theorem reads_bracketed {depth : Nat} {body : Reader α} (hdepth : 0 < depth)
    (hbody : Reads (StartsWith ']') body w a) (expected : String) :
    ReadsValue (do
      if (← valueStart) = '[' then
        inside depth body closeArray
      else
        mismatch expected) ('[' :: (w ++ [']'])) a := by
  have hread := reads_inside '[' hdepth hbody reads_closeArray fun _ => rfl
  refine ⟨⟨'[', _, rfl, by decide, by decide, by decide⟩, ?_⟩
  refine Reads.afterValueStart (by decide) ?_
  rw [if_pos rfl]
  exact hread.mono fun _ _ => trivial

/-- An array of values that are read is read. -/
theorem reads_array {depth : Nat} {r : Reader α} {write : α → String} {as : List α}
    (hdepth : 0 < depth) (h : ∀ a ∈ as, ReadsValue r (write a).toList a) :
    ReadsValue (array depth r) (arrayText (as.map write)).toList as := by
  have hopens : ∀ w ∈ (as.map write).map String.toList, Opens w := by
    intro w hw
    obtain ⟨value, hvalue, rfl⟩ := List.mem_map.1 hw
    obtain ⟨a, ha, rfl⟩ := List.mem_map.1 hvalue
    exact (h a ha).opens
  have hbody : Reads (StartsWith ']') (do elements r (← roundLimit) true)
      (separated true ((as.map write).map String.toList)) as := by
    refine Reads.roundLimit fun rounds hrounds => reads_elements h true ?_
    have hle := length_le_separated hopens true
    rw [List.length_map, List.length_map] at hle
    exact Nat.lt_of_le_of_lt hle hrounds
  rw [toList_arrayText]
  exact reads_bracketed hdepth hbody "a sequence"

/-- An array of two values that are read is read as a pair. -/
theorem reads_pair {depth : Nat} {ra : Reader α} {rb : Reader β} {wa wb : String}
    (hdepth : 0 < depth) (ha : ReadsValue ra wa.toList a) (hb : ReadsValue rb wb.toList b) :
    ReadsValue (pair depth ra rb) (arrayText [wa, wb]).toList (a, b) := by
  obtain ⟨⟨c, cs, hwa, hspace, hbracket, -⟩, hreada⟩ := ha
  obtain ⟨⟨d, ds, hwb, hspace', hbracket', -⟩, hreadb⟩ := hb
  have hsecond : Reads (StartsWith ']') (do
      if ← hasElement false then
        let y ← rb
        return (a, y)
      else
        failAnywhere (.tooShort 1 "a tuple of size 2"))
      ([','] ++ wb.toList) (a, b) := by
    refine (reads_hasElement false hspace' hbracket').bind ?_ fun rest _ => ?_
    · refine (hreadb.map (Prod.mk a)).mono fun rest hrest => ?_
      exact delimited_separated (Or.inl rfl) [] hrest
    · rw [hwb]
      exact startsWith_cons d _
  have hbody : Reads (StartsWith ']') (do
      if ← hasElement true then
        let x ← ra
        if ← hasElement false then
          let y ← rb
          return (x, y)
        else
          failAnywhere (.tooShort 1 "a tuple of size 2")
      else
        failAnywhere (.tooShort 0 "a tuple of size 2"))
      (wa.toList ++ ([','] ++ wb.toList)) (a, b) := by
    refine (reads_hasElement true hspace hbracket).bind (w := []) ?_ fun rest _ => ?_
    · exact hreada.bind hsecond fun rest _ => delimited_cons (Or.inl rfl)
    · rw [hwa]
      exact startsWith_cons c _
  have hwritten : (arrayText [wa, wb]).toList =
      '[' :: (wa.toList ++ ([','] ++ wb.toList) ++ [']']) := by
    rw [toList_arrayText]
    simp [separated, comma]
  rw [hwritten]
  exact reads_bracketed hdepth hbody "a tuple of size 2"

end

/-! ## Records -/

/-- A named, written value between the braces of an object. -/
def entryText (entry : String × String) : List Char :=
  (quote entry.1).toList ++ ':' :: entry.2.toList

theorem toList_objectText (entries : List (String × String)) :
    (objectText entries).toList =
      '{' :: (separated true (entries.map entryText) ++ ['\x7d']) := by
  have hentry : ∀ entry : String × String,
      (quote entry.1 ++ ":" ++ entry.2).toList = entryText entry := by
    intro entry
    rw [String.toList_append, String.toList_append, List.append_assoc]
    rfl
  have hentries : ((entries.map fun entry => quote entry.1 ++ ":" ++ entry.2).map
      String.toList) = entries.map entryText := by
    rw [List.map_map]
    exact List.map_congr_left fun entry _ => hentry entry
  unfold objectText
  rw [String.toList_append, String.toList_append, toList_intercalate_comma]
  exact congrArg (fun rows => '{' :: (separated true rows ++ ['\x7d'])) hentries

namespace Record

variable {σ α : Type} {r : Record σ α} {entries : List (String × String)} {s t : σ} {a : α}

/-- The state that the fields of a record are in when some entries of an object have been
read: each entry names a field that holds no value yet and is read into the state. -/
inductive Fills (r : Record σ α) : σ → List (String × String) → σ → Prop
  | done (s : σ) : Fills r s [] s
  | entry {s t u : σ} {name value : String} {entries : List (String × String)}
      (field : Field σ) (named : r.fields.find? (·.name == name) = some field)
      (unset : field.isSet s = false) (reads : Reads Delimited (field.read s) value.toList t)
      (others : Fills r t entries u) : Fills r s ((name, value) :: entries) u

theorem reads_complete (h : r.finish s = .ok a) : Reads Anything (r.complete s) [] a := by
  unfold complete
  rw [h]
  exact Reads.pure a

/-- The entries of an object are read up to its brace. -/
theorem reads_fromObject (h : Fills r s entries t) (hfinish : r.finish t = .ok a) {fuel : Nat}
    (first : Bool) (hfuel : entries.length < fuel) :
    Reads (StartsWith '\x7d') (r.fromObject fuel first s)
      (separated first (entries.map entryText)) a := by
  induction h generalizing fuel first with
  | done s =>
      obtain ⟨fuel, rfl⟩ := Nat.exists_eq_succ_of_ne_zero (Nat.ne_of_gt hfuel)
      exact (reads_key_end first).bind_nil ((reads_complete hfinish).mono fun _ _ => trivial)
  | @entry s t u name value entries field named unset reads others ih =>
      cases fuel with
      | zero => cases hfuel
      | succ fuel =>
          have hothers := ih hfinish false (Nat.lt_of_succ_lt_succ hfuel)
          have hvalue : Reads (StartsWith '\x7d') (do
              Reader.colon
              let state ← field.read s
              r.fromObject fuel false state)
              ([':'] ++ (value.toList ++ separated false (entries.map entryText))) a :=
            reads_colon.andThen (reads.bind hothers fun rest hrest =>
              delimited_separated (Or.inr rfl) _ hrest)
          have hwritten : separated first (((name, value) :: entries).map entryText) =
              comma first ++ (quote name).toList ++
                ([':'] ++ (value.toList ++ separated false (entries.map entryText))) := by
            simp [separated, entryText]
          rw [hwritten]
          refine (reads_key first name).andThen ?_
          dsimp only
          rw [named]
          dsimp only
          rw [unset, if_neg Bool.false_ne_true]
          exact hvalue

/-- An object whose entries fill a record is read as what the fields make. -/
theorem reads_object {depth : Nat} (hdepth : 0 < depth) (h : Fills r r.start entries s)
    (hfinish : r.finish s = .ok a) :
    ReadsValue (r.reader depth) (objectText entries).toList a := by
  have hopens : ∀ w ∈ entries.map entryText, Opens w := by
    intro w hw
    obtain ⟨entry, -, rfl⟩ := List.mem_map.1 hw
    exact (opens_quote entry.1).append _
  have hbody : Reads (StartsWith '\x7d') (do r.fromObject (← Reader.roundLimit) true r.start)
      (separated true (entries.map entryText)) a := by
    refine Reads.roundLimit fun rounds hrounds => reads_fromObject h hfinish true ?_
    have hle := length_le_separated hopens true
    rw [List.length_map] at hle
    exact Nat.lt_of_le_of_lt hle hrounds
  have hread := reads_inside '{' hdepth hbody reads_closeObject fun _ => rfl
  rw [toList_objectText]
  refine ⟨⟨'{', _, rfl, by decide, by decide, by decide⟩, ?_⟩
  refine Reads.afterValueStart (by decide) ?_
  exact hread.mono fun _ _ => trivial

end Record

/-- A text that holds nothing but a value is read as that value. -/
theorem read_eq_ok {α : Type} {r : Reader α} {source : String} {a : α}
    (h : ReadsValue r source.toList a) : read r source = .ok a := by
  have hdelimited : Delimited [] := by
    intro c hc
    cases hc
  have hsize : (source.toList ++ []).length ≤ source.length := by
    rw [List.append_nil, String.length_toList]
  obtain ⟨place, hread⟩ := h.reads [] ⟨1, 0⟩ source.length hdelimited hsize
  rw [List.append_nil] at hread
  unfold read
  dsimp only
  rw [show Cursor.ofText source = ⟨source.toList, ⟨1, 0⟩, source.length⟩ from rfl,
    start_bind_of_ok hread]
  rfl

end Json
end ModelWorkspace
