import Mathlib
import ModelWorkspace.Package.Components

/-!
# The depth-first walk without a bound

The walk goes on to a node as soon as it meets it, however deep this leads.  `Walks` says what it
does at one node, and `Runs` what it does from several nodes, one after the other.  There is only
one way to go (`Walks.unique`, `Runs.unique`), and the walk that may only go as deep as there are
nodes goes it to its end (`runs_connectAll`): each time that it goes on, there is one node less
that it has not come to.
-/

namespace ModelWorkspace
namespace Components

variable {n : Nat} {edges : Graph n} {s t u : Walk n} {v w x : Fin n}

/-- The walk at a node with some successors to look at: where it is when it has looked at all of
them, and has come back from all nodes that it has gone on to. -/
inductive Walks (edges : Graph n) : (v : Fin n) → (todo : List (Fin n)) → Walk n → Walk n → Prop
  | done {v : Fin n} {s : Walk n} : Walks edges v [] s s
  | enter {v w : Fin n} {todo : List (Fin n)} {s t u : Walk n} (h : s.index.get w = none)
      (inner : Walks edges w (edges.get w) (s.enter w) t)
      (rest : Walks edges v todo ((t.leave w).lower v ((t.leave w).lowlink.get w)) u) :
      Walks edges v (w :: todo) s u
  | back {v w : Fin n} {todo : List (Fin n)} {s u : Walk n} {number : Nat}
      (h : s.index.get w = some number) (hstack : s.onStack.get w = true)
      (rest : Walks edges v todo (s.lower v number) u) : Walks edges v (w :: todo) s u
  | skip {v w : Fin n} {todo : List (Fin n)} {s u : Walk n} {number : Nat}
      (h : s.index.get w = some number) (hstack : s.onStack.get w = false)
      (rest : Walks edges v todo s u) : Walks edges v (w :: todo) s u

/-- The walk from some nodes, one after the other, if it has not come to them before. -/
inductive Runs (edges : Graph n) : (nodes : List (Fin n)) → Walk n → Walk n → Prop
  | done {s : Walk n} : Runs edges [] s s
  | enter {v : Fin n} {nodes : List (Fin n)} {s t u : Walk n} (h : s.index.get v = none)
      (inner : Walks edges v (edges.get v) (s.enter v) t) (rest : Runs edges nodes (t.leave v) u) :
      Runs edges (v :: nodes) s u
  | skip {v : Fin n} {nodes : List (Fin n)} {s u : Walk n} (h : s.index.get v ≠ none)
      (rest : Runs edges nodes s u) : Runs edges (v :: nodes) s u

/-! ## One way only -/

theorem Walks.unique {todo : List (Fin n)} (h : Walks edges v todo s t)
    (hother : Walks edges v todo s u) : u = t := by
  induction h generalizing u with
  | done => cases hother with | done => rfl
  | enter h _ _ ih ih' =>
      cases hother with
      | enter _ inner rest =>
          obtain rfl := ih inner
          exact ih' rest
      | back h' _ _ => rw [h] at h'; cases h'
      | skip h' _ _ => rw [h] at h'; cases h'
  | back h hstack _ ih =>
      cases hother with
      | enter h' _ _ => rw [h] at h'; cases h'
      | back h' _ rest =>
          rw [h] at h'
          cases h'
          exact ih rest
      | skip _ hstack' _ => rw [hstack] at hstack'; cases hstack'
  | skip h hstack _ ih =>
      cases hother with
      | enter h' _ _ => rw [h] at h'; cases h'
      | back _ hstack' _ => rw [hstack] at hstack'; cases hstack'
      | skip _ _ rest => exact ih rest

theorem Runs.unique {nodes : List (Fin n)} (h : Runs edges nodes s t)
    (hother : Runs edges nodes s u) : u = t := by
  induction h with
  | done => cases hother with | done => rfl
  | enter h inner _ ih =>
      cases hother with
      | enter _ inner' rest =>
          obtain rfl := inner.unique inner'
          exact ih rest
      | skip h' _ => exact absurd h h'
  | skip h _ ih =>
      cases hother with
      | enter h' _ _ => exact absurd h' h
      | skip _ rest => exact ih rest

/-! ## The depth is enough -/

namespace Walk

/-- The number of nodes that the walk has not come to. -/
def unentered (s : Walk n) : Nat :=
  (Finset.univ.filter fun v : Fin n => s.index.get v = none).card

theorem unentered_mono (h : ∀ x : Fin n, t.index.get x = none → s.index.get x = none) :
    t.unentered ≤ s.unentered := by
  refine Finset.card_le_card fun x hx => ?_
  rw [Finset.mem_filter] at hx ⊢
  exact ⟨hx.1, h x hx.2⟩

theorem index_eq_none_of_enter (h : (s.enter v).index.get x = none) : s.index.get x = none := by
  rw [index_enter] at h
  split at h
  · cases h
  · exact h

theorem unentered_enter_lt (h : s.index.get v = none) : (s.enter v).unentered < s.unentered := by
  have hsub : (Finset.univ.filter fun x : Fin n => (s.enter v).index.get x = none) ⊆
      Finset.univ.filter fun x : Fin n => s.index.get x = none := by
    intro x hx
    rw [Finset.mem_filter] at hx ⊢
    exact ⟨hx.1, index_eq_none_of_enter hx.2⟩
  refine Finset.card_lt_card ((Finset.ssubset_iff_of_subset hsub).mpr ⟨v, ?_, ?_⟩)
  · rw [Finset.mem_filter]
    exact ⟨Finset.mem_univ v, h⟩
  · rw [Finset.mem_filter, index_enter, if_pos rfl]
    exact fun hx => Option.some_ne_none _ hx.2

theorem unentered_le (s : Walk n) : s.unentered ≤ n :=
  (Finset.card_filter_le _ _).trans (Finset.card_fin n).le

end Walk

/-- The walk never forgets a node. -/
theorem Walks.index_eq_none {todo : List (Fin n)} (h : Walks edges v todo s t) (x : Fin n)
    (hx : t.index.get x = none) : s.index.get x = none := by
  induction h with
  | done => exact hx
  | @enter v w todo s t u _ _ _ ih ih' =>
      have hleft := ih' hx
      change (t.leave w).index.get x = none at hleft
      rw [Walk.index_leave] at hleft
      exact Walk.index_eq_none_of_enter (ih hleft)
  | back _ _ _ ih => exact ih hx
  | skip _ _ _ ih => exact ih hx

/-- A depth of as many nodes as the walk has not come to is enough to follow some nodes. -/
theorem walks_foldl_follow {depth : Nat} (todo : List (Fin n)) (hdepth : s.unentered ≤ depth) :
    Walks edges v todo s (todo.foldl (follow (connect edges depth) v) s) := by
  -- on the depth for the nodes that the walk goes on to, within it on the successors
  induction depth using Nat.strong_induction_on generalizing v s todo with
  | h depth ihdepth =>
    induction todo generalizing s with
    | nil => exact .done
    | cons w todo ih =>
        rw [List.foldl_cons]
        cases hindex : s.index.get w with
        | none =>
            have hless := Walk.unentered_enter_lt hindex
            obtain ⟨less, rfl⟩ : ∃ less, depth = less + 1 := ⟨depth - 1, by omega⟩
            have hinner : Walks edges w (edges.get w) (s.enter w)
                ((edges.get w).foldl (follow (connect edges less) w) (s.enter w)) :=
              ihdepth less (by omega) (edges.get w) (by omega)
            have hfollow : follow (connect edges (less + 1)) v s w =
                ((connect edges (less + 1) s w).lower v
                  ((connect edges (less + 1) s w).lowlink.get w)) := by
              unfold follow
              rw [hindex]
            rw [hfollow]
            refine .enter hindex hinner (ih ?_)
            -- what the walk has come to meanwhile, it need not come to again
            have hmono : (connect edges (less + 1) s w).unentered ≤ (s.enter w).unentered := by
              refine Walk.unentered_mono fun x hx => hinner.index_eq_none x ?_
              rw [connect, Walk.index_leave] at hx
              exact hx
            exact (hmono.trans hless.le).trans hdepth
        | some number =>
            unfold follow
            rw [hindex]
            cases hstack : s.onStack.get w with
            | true => exact .back hindex hstack (ih hdepth)
            | false => exact .skip hindex hstack (ih hdepth)

theorem runs_connectAll (edges : Graph n) (s : Walk n) (nodes : List (Fin n)) :
    Runs edges nodes s (connectAll edges s nodes) := by
  induction nodes generalizing s with
  | nil => exact .done
  | cons v nodes ih =>
      unfold connectAll
      rw [List.foldl_cons]
      cases hindex : s.index.get v with
      | some number =>
          refine .skip (fun hnone => ?_) (ih s)
          rw [hindex] at hnone
          cases hnone
      | none =>
          have hless := Walk.unentered_enter_lt hindex
          have hle := s.unentered_le
          obtain ⟨less, rfl⟩ : ∃ less, n = less + 1 := ⟨n - 1, by omega⟩
          exact .enter hindex (walks_foldl_follow (edges.get v) (by omega)) (ih _)

end Components
end ModelWorkspace
