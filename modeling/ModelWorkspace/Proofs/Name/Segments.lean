import ModelWorkspace.Proofs.Name.Global
import ModelWorkspace.Text.Identifier

/-!
# Names and their segments

Identifiers are plain: they have neither the dot that joins the names of containers and
elements, nor the `@` of synthetic names.  A number behind a plain name leaves it plain, so
a variant of a declared name is never a synthetic one.

A name lies below another one if it goes on with a dot behind it.  What stands before the
first dot of a name is its first segment; names below different segments are different.
-/

namespace ModelWorkspace
namespace Name

/-- A name without the characters that names are put together with. -/
def IsPlain (name : String) : Prop :=
  '.' ∉ name.toList ∧ '@' ∉ name.toList

instance (name : String) : Decidable (IsPlain name) :=
  inferInstanceAs (Decidable ('.' ∉ name.toList ∧ '@' ∉ name.toList))

/-- Identifiers are plain. -/
theorem IsPlain.of_isIdentifier {name : String} (h : isIdentifier name = true) :
    IsPlain name := by
  unfold isIdentifier at h
  unfold IsPlain
  cases hchars : name.toList with
  | nil => exact ⟨List.not_mem_nil, List.not_mem_nil⟩
  | cons first rest =>
      rw [hchars] at h
      obtain ⟨hfirst, hrest⟩ := Bool.and_eq_true_iff.mp h
      rw [List.all_eq_true] at hrest
      have hnot : ∀ c, (c == '_' || isIdentifierStart c) = false →
          isIdentifierContinue c = false → c ∉ first :: rest := by
        intro c hstart hcontinue hc
        rcases List.mem_cons.mp hc with rfl | hc
        · rw [hstart] at hfirst
          cases hfirst
        · rw [hrest c hc] at hcontinue
          cases hcontinue
      exact ⟨hnot '.' (by decide) isIdentifierContinue_dot,
        hnot '@' (by decide) isIdentifierContinue_at⟩

/-! ## Numbers behind a name -/

/-- A number has no other characters than digits. -/
theorem notMem_toString {c : Char} (hc : c.isDigit = false) (n : Nat) :
    c ∉ (toString n).toList := by
  rw [Nat.toString_eq_ofList_toDigits, String.toList_ofList]
  intro hmem
  rw [Nat.isDigit_of_mem_toDigits (by omega) (by omega) hmem] at hc
  cases hc

theorem notMem_candidate {c : Char} (hc : c.isDigit = false) {base : String}
    (h : c ∉ base.toList) (n : Nat) : c ∉ (candidate base n).toList := by
  cases n with
  | zero => exact h
  | succ n =>
      rw [candidate, String.toList_append, List.mem_append, not_or]
      exact ⟨h, notMem_toString hc (n + 1)⟩

/-- A free variant of a plain name is plain. -/
theorem IsPlain.freshBy {base : String} (h : IsPlain base) (key : String → String)
    (taken : List String) : IsPlain (freshBy key taken base) :=
  ⟨notMem_candidate (by decide) h.1 _, notMem_candidate (by decide) h.2 _⟩

/-! ## Synthetic names -/

theorem dot_notMem_synthetic {feature : String} (h : IsPlain feature) (index : Nat) :
    '.' ∉ (synthetic feature index).toList := by
  unfold synthetic
  rw [String.toList_append, String.toList_append]
  simp only [List.mem_append, not_or]
  exact ⟨⟨h.1, by decide⟩, notMem_toString (by decide) index⟩

theorem at_mem_synthetic (feature : String) (index : Nat) :
    '@' ∈ (synthetic feature index).toList := by
  unfold synthetic
  rw [String.toList_append, String.toList_append]
  simp

/-- A synthetic name shows its feature and its index. -/
theorem synthetic_inj {f g : String} (hf : IsPlain f) (hg : IsPlain g) {m n : Nat}
    (h : synthetic f m = synthetic g n) : f = g ∧ m = n := by
  have hbefore : ∀ {f : String}, IsPlain f → ∀ n : Nat,
      (synthetic f n).toList.takeWhile (· ≠ '@') = f.toList := by
    intro f hf n
    unfold synthetic
    rw [String.toList_append, String.toList_append, List.append_assoc]
    exact takeWhile_append_cons hf.2 _
  have hfeature : f = g := by
    rw [← String.toList_inj, ← hbefore hf m, h, hbefore hg n]
  subst hfeature
  have hindex : toString m = toString n := (String.append_right_inj _).mp h
  rw [Nat.toString_eq_repr, Nat.toString_eq_repr] at hindex
  exact ⟨rfl, Nat.repr_injective hindex⟩

/-! ## Segments -/

/-- What stands before the first dot. -/
def firstSegment (name : String) : String :=
  String.ofList (name.toList.takeWhile (· ≠ '.'))

/-- A name is that of a container, or goes on behind it. -/
def IsWithin (container name : String) : Prop :=
  name = container ∨ ∃ rest, name = nested container rest

variable {container own other name : String}

theorem nested_right_inj : nested container own = nested container other ↔ own = other :=
  String.append_right_inj _

theorem nested_assoc (container own rest : String) :
    nested (nested container own) rest = nested container (nested own rest) := by
  simp only [nested, String.append_assoc]

theorem nested_ne (container own : String) : nested container own ≠ container := by
  intro h
  have hlength := congrArg String.length h
  simp only [nested, String.length_append] at hlength
  have : ".".length = 1 := rfl
  omega

theorem IsWithin.refl (name : String) : IsWithin name name :=
  Or.inl rfl

/-- What lies within a nested name goes on behind the container. -/
theorem IsWithin.exists_nested (h : IsWithin (nested container own) name) :
    ∃ rest, name = nested container rest ∧ IsWithin own rest := by
  rcases h with rfl | ⟨rest, rfl⟩
  · exact ⟨own, rfl, IsWithin.refl own⟩
  · exact ⟨nested own rest, nested_assoc container own rest, Or.inr ⟨rest, rfl⟩⟩

theorem IsWithin.of_nested (h : IsWithin (nested container own) name) :
    IsWithin container name := by
  obtain ⟨rest, hname, -⟩ := h.exists_nested
  exact Or.inr ⟨rest, hname⟩

/-- A container without a dot is the first segment of what lies within it. -/
theorem IsWithin.firstSegment_eq (h : IsWithin container name)
    (hdot : '.' ∉ container.toList) : firstSegment name = container := by
  unfold firstSegment
  rw [← String.toList_inj, String.toList_ofList]
  rcases h with rfl | ⟨rest, rfl⟩
  · exact takeWhile_of_notMem hdot
  · unfold nested
    rw [String.toList_append, String.toList_append, List.append_assoc]
    exact takeWhile_append_cons hdot _

/-- Nothing lies within two nested names of one container. -/
theorem eq_of_isWithin_nested (h : IsWithin (nested container own) name)
    (h' : IsWithin (nested container other) name) (hown : '.' ∉ own.toList)
    (hother : '.' ∉ other.toList) : own = other := by
  obtain ⟨rest, rfl, hrest⟩ := h.exists_nested
  obtain ⟨rest', heq, hrest'⟩ := h'.exists_nested
  rw [nested_right_inj.mp heq] at hrest
  rw [← hrest.firstSegment_eq hown, hrest'.firstSegment_eq hother]

end Name
end ModelWorkspace
