import Mathlib
import ModelWorkspace.Proofs.Package.DepthFirst

/-!
# The walk finds the strongly connected components

Between two steps there is a path of nodes that the walk has come to and not left.  What holds
then is `Walk.Coherent`: the nodes on the path lead to all nodes above them on the stack, every
node on the stack leads back to one on the path that is not above it, and what is in the
components leads nowhere else.  The numbers that are noted are those of nodes on the stack that
can be reached (`low`).  For the last node on the path, `Walk.Covers` says that nothing smaller
has been met by the nodes above it.  Each step keeps both (`Coherent.enter`, `Coherent.lower`,
`Coherent.leave`), so the walk through all successors of a node does (`Walks.coherent`), and the
walk from all nodes (`Runs.coherent`).  Then the path is empty, and so is the stack: the
components are complete (`all_areComponents`).
-/

namespace ModelWorkspace
namespace Components

open Relation

variable {n : Nat} {edges : Graph n} {s t u : Walk n} {v w x : Fin n} {path : List (Fin n)}

/-- One node can be reached from another one. -/
def Reaches (edges : Graph n) : Fin n → Fin n → Prop :=
  ReflTransGen fun v w => w ∈ edges.get v

/-- Each of two nodes can be reached from the other. -/
def Connected (edges : Graph n) (v w : Fin n) : Prop :=
  Reaches edges v w ∧ Reaches edges w v

/-! ## What holds between two steps -/

theorem Reaches.tail (h : Reaches edges v w) (hx : x ∈ edges.get w) : Reaches edges v x :=
  ReflTransGen.tail h hx

theorem Reaches.trans (h : Reaches edges v w) (h' : Reaches edges w x) : Reaches edges v x :=
  ReflTransGen.trans h h'

theorem Reaches.refl (edges : Graph n) (v : Fin n) : Reaches edges v v :=
  ReflTransGen.refl

namespace Walk

/-- The walk has come to a node. -/
def Entered (s : Walk n) (v : Fin n) : Prop :=
  s.index.get v ≠ none

/-- The number of a node that the walk has come to. -/
def number (s : Walk n) (v : Fin n) : Nat :=
  (s.index.get v).getD 0

theorem number_of_index {number : Nat} (h : s.index.get v = some number) :
    s.number v = number := by
  unfold Walk.number
  rw [h]
  rfl

theorem number_enter (s : Walk n) (v w : Fin n) :
    (s.enter v).number w = if v = w then s.counter else s.number w := by
  unfold number
  rw [index_enter]
  split <;> rfl

theorem entered_enter : (s.enter v).Entered w ↔ v = w ∨ s.Entered w := by
  unfold Entered
  rw [index_enter]
  by_cases h : v = w
  · simp [h]
  · simp [h]

theorem number_leave (s : Walk n) (v w : Fin n) : (s.leave v).number w = s.number w := by
  unfold number
  rw [index_leave]

theorem entered_leave : (s.leave v).Entered w ↔ s.Entered w := by
  unfold Entered
  rw [index_leave]

/-- What a walk writes down agrees, with a path of nodes that it has come to and not left, the last
one in front. -/
structure Stacked (s : Walk n) (path : List (Fin n)) : Prop where
  onStack_iff : ∀ v : Fin n, s.onStack.get v = true ↔ v ∈ s.stack
  entered_iff : ∀ v, s.Entered v ↔ v ∈ s.stack ∨ v ∈ s.components.flatten
  nodup : (s.stack ++ s.components.flatten).Nodup
  number_lt : ∀ v, s.Entered v → s.number v < s.counter
  sorted : s.stack.Pairwise fun v w => s.number w < s.number v
  path_sorted : path.Pairwise fun v w => s.number w < s.number v
  path_subset : path ⊆ s.stack

/-- The numbers that are noted for the nodes on the stack are those of nodes on the stack that they
lead to, and not greater than their own. -/
structure Noted (edges : Graph n) (s : Walk n) : Prop where
  low_le : ∀ v ∈ s.stack, s.lowlink.get v ≤ s.number v
  low : ∀ v ∈ s.stack, ∃ w ∈ s.stack, s.number w = s.lowlink.get v ∧ Reaches edges v w

/-- What holds of a walk with a path of nodes that it has come to and not left. -/
structure Coherent (edges : Graph n) (s : Walk n) (path : List (Fin n)) : Prop
    extends Stacked s path, Noted edges s where
  /-- The path leads to what is above it, and what is on the stack leads back to the path. -/
  leads : ∀ v ∈ path, ∀ w ∈ s.stack, s.number v ≤ s.number w → Reaches edges v w
  returns : ∀ w ∈ s.stack, ∃ v ∈ path, s.number v ≤ s.number w ∧ Reaches edges w v
  /-- Nodes that the walk has left lead to none that it has not come to. -/
  followed : ∀ v, s.Entered v → v ∉ path → ∀ w ∈ edges.get v, s.Entered w
  closed : ∀ v ∈ s.components.flatten, ∀ w ∈ edges.get v, w ∈ s.components.flatten
  ne_nil : ∀ c ∈ s.components, c ≠ []
  component_iff : ∀ c ∈ s.components, ∀ v ∈ c, ∀ w, w ∈ c ↔ Connected edges v w

/-- The walk has looked at some successors of a node, and at all those of the nodes above it:
the number noted for the node is not greater than that of any of them on the stack. -/
structure Covers (edges : Graph n) (s : Walk n) (v : Fin n) (seen : List (Fin n)) : Prop where
  entered : ∀ w ∈ seen, s.Entered w
  own : ∀ w ∈ seen, w ∈ s.stack → s.lowlink.get v ≤ s.number w
  above : ∀ u ∈ s.stack, s.number v < s.number u → ∀ w ∈ edges.get u, w ∈ s.stack →
    s.lowlink.get v ≤ s.number w

/-- What the walk leaves as it is while it goes on from a node. -/
structure Keeps (s t : Walk n) (v : Fin n) : Prop where
  index : ∀ w : Fin n, s.Entered w → t.index.get w = s.index.get w
  lowlink : ∀ w : Fin n, w ≠ v → s.Entered w → t.lowlink.get w = s.lowlink.get w
  lowered : t.lowlink.get v ≤ s.lowlink.get v
  stack : ∃ new, t.stack = new ++ s.stack

namespace Keeps

theorem refl (s : Walk n) (v : Fin n) : Keeps s s v :=
  ⟨fun _ _ => rfl, fun _ _ _ => rfl, le_refl _, [], rfl⟩

theorem entered (h : Keeps s t v) (hw : s.Entered w) : t.Entered w := by
  unfold Entered
  rw [h.index w hw]
  exact hw

theorem number (h : Keeps s t v) (hw : s.Entered w) : t.number w = s.number w := by
  unfold Walk.number
  rw [h.index w hw]

theorem trans (h : Keeps s t v) (h' : Keeps t u v) : Keeps s u v where
  index := fun w hw => (h'.index w (h.entered hw)).trans (h.index w hw)
  lowlink := fun w hne hw => (h'.lowlink w hne (h.entered hw)).trans (h.lowlink w hne hw)
  lowered := h'.lowered.trans h.lowered
  stack := by
    obtain ⟨new, hnew⟩ := h.stack
    obtain ⟨more, hmore⟩ := h'.stack
    exact ⟨more ++ new, by rw [hmore, hnew, List.append_assoc]⟩

theorem lower (s : Walk n) (v : Fin n) (low : Nat) : Keeps s (s.lower v low) v where
  index := fun _ _ => rfl
  lowlink := by
    intro w hne _
    rw [lowlink_lower, if_neg (Ne.symm hne)]
  lowered := by
    rw [lowlink_lower, if_pos rfl]
    exact min_le_left _ _
  stack := ⟨[], rfl⟩

end Keeps

/-! ### Coming to a node -/

namespace Stacked

theorem entered_of_mem (h : s.Stacked path) (hx : x ∈ s.stack) : s.Entered x :=
  (h.entered_iff x).mpr (.inl hx)

theorem ne_of_mem (h : s.Stacked path) (hw : s.index.get w = none) (hx : x ∈ s.stack) :
    w ≠ x := by
  rintro rfl
  exact h.entered_of_mem hx hw

/-- The nodes on the stack keep their numbers. -/
theorem number_enter_of_mem (h : s.Stacked path) (hw : s.index.get w = none)
    (hx : x ∈ s.stack) : (s.enter w).number x = s.number x := by
  rw [number_enter, if_neg (h.ne_of_mem hw hx)]

/-- The node that the walk comes to gets the greatest number. -/
theorem number_enter_lt (h : s.Stacked path) (hw : s.index.get w = none) (hx : x ∈ s.stack) :
    (s.enter w).number x < (s.enter w).number w := by
  rw [h.number_enter_of_mem hw hx, number_enter, if_pos rfl]
  exact h.number_lt x (h.entered_of_mem hx)

theorem enter (h : s.Stacked path) (hw : s.index.get w = none) :
    (s.enter w).Stacked (w :: path) := by
  have hnew : ¬ s.Entered w := fun hentered => hentered hw
  constructor
  case onStack_iff =>
    intro x
    rw [onStack_enter]
    by_cases hx : w = x
    · simp [hx, Walk.enter]
    · rw [if_neg hx, h.onStack_iff]
      simp [Walk.enter, Ne.symm hx]
  case entered_iff =>
    intro x
    rw [entered_enter, h.entered_iff, Walk.enter, List.mem_cons, eq_comm, or_assoc]
  case nodup =>
    refine List.nodup_cons.mpr ⟨fun hmem => hnew ?_, h.nodup⟩
    exact (h.entered_iff w).mpr (List.mem_append.mp hmem)
  case number_lt =>
    intro x hx
    rw [number_enter]
    split
    · exact Nat.lt_succ_self _
    · rename_i hne
      exact Nat.lt_succ_of_lt (h.number_lt x ((entered_enter.mp hx).resolve_left hne))
  case sorted =>
    refine List.pairwise_cons.mpr ⟨fun x => h.number_enter_lt hw,
      h.sorted.imp_of_mem fun hx hy hxy => ?_⟩
    rwa [h.number_enter_of_mem hw hx, h.number_enter_of_mem hw hy]
  case path_sorted =>
    refine List.pairwise_cons.mpr ⟨fun x hx => h.number_enter_lt hw (h.path_subset hx),
      h.path_sorted.imp_of_mem fun hx hy hxy => ?_⟩
    rwa [h.number_enter_of_mem hw (h.path_subset hx), h.number_enter_of_mem hw (h.path_subset hy)]
  case path_subset => exact List.cons_subset_cons w h.path_subset

end Stacked

theorem Noted.enter (h : s.Stacked path) (hnoted : Noted edges s) (hw : s.index.get w = none) :
    Noted edges (s.enter w) := by
  constructor
  case low_le =>
    intro x hx
    rw [lowlink_enter, number_enter]
    rcases List.mem_cons.mp hx with rfl | hx
    · rw [if_pos rfl, if_pos rfl]
    · rw [if_neg (h.ne_of_mem hw hx), if_neg (h.ne_of_mem hw hx)]
      exact hnoted.low_le x hx
  case low =>
    intro x hx
    rw [lowlink_enter]
    rcases List.mem_cons.mp hx with rfl | hx
    · rw [if_pos rfl]
      exact ⟨x, List.mem_cons_self, by rw [number_enter, if_pos rfl], .refl edges x⟩
    · rw [if_neg (h.ne_of_mem hw hx)]
      obtain ⟨y, hy, hlow, hreaches⟩ := hnoted.low x hx
      exact ⟨y, List.mem_cons_of_mem w hy, by rw [h.number_enter_of_mem hw hy, hlow], hreaches⟩

theorem Coherent.enter (h : Coherent edges s path) (hw : s.index.get w = none)
    (hpath : ∀ v ∈ path, Reaches edges v w) : Coherent edges (s.enter w) (w :: path) where
  toStacked := h.toStacked.enter hw
  toNoted := h.toNoted.enter h.toStacked hw
  leads := by
    intro v hv x hx hle
    rcases List.mem_cons.mp hx with rfl | hold
    · rcases List.mem_cons.mp hv with rfl | hv
      · exact .refl edges v
      · exact hpath v hv
    · rcases List.mem_cons.mp hv with rfl | hv
      · -- nothing stands above the new node
        exact absurd (h.number_enter_lt hw hold) (Nat.not_lt_of_le hle)
      · rw [h.number_enter_of_mem hw (h.path_subset hv), h.number_enter_of_mem hw hold] at hle
        exact h.leads v hv x hold hle
  returns := by
    intro x hx
    rcases List.mem_cons.mp hx with rfl | hx
    · exact ⟨x, List.mem_cons_self, le_refl _, .refl edges x⟩
    · obtain ⟨v, hv, hle, hreaches⟩ := h.returns x hx
      refine ⟨v, List.mem_cons_of_mem w hv, ?_, hreaches⟩
      rwa [h.number_enter_of_mem hw (h.path_subset hv), h.number_enter_of_mem hw hx]
  followed := by
    intro x hx hnot y hy
    rw [List.mem_cons, not_or] at hnot
    have hold := (entered_enter.mp hx).resolve_left (Ne.symm hnot.1)
    exact entered_enter.mpr (.inr (h.followed x hold hnot.2 y hy))
  closed := h.closed
  ne_nil := h.ne_nil
  component_iff := h.component_iff

/-! ### Noting a number -/

/-- A number may be noted for a node if it is not less than the one noted before, or that of a
node on the stack to which the node leads. -/
theorem Noted.lower (h : Noted edges s) {low : Nat}
    (hlow : s.lowlink.get v ≤ low ∨ ∃ w ∈ s.stack, s.number w = low ∧ Reaches edges v w) :
    Noted edges (s.lower v low) := by
  constructor
  case low_le =>
    intro x hx
    rw [lowlink_lower]
    split
    · rename_i hvx
      subst hvx
      exact (min_le_left _ _).trans (h.low_le v hx)
    · exact h.low_le x hx
  case low =>
    intro x hx
    rw [lowlink_lower]
    split
    · rename_i hvx
      subst hvx
      rcases Nat.le_total (s.lowlink.get v) low with hle | hle
      · rw [min_eq_left hle]
        exact h.low v hx
      · rw [min_eq_right hle]
        rcases hlow with hge | hfound
        · rw [← le_antisymm hge hle]
          exact h.low v hx
        · exact hfound
    · exact h.low x hx

theorem Coherent.lower (h : Coherent edges s path) {low : Nat}
    (hlow : s.lowlink.get v ≤ low ∨ ∃ w ∈ s.stack, s.number w = low ∧ Reaches edges v w) :
    Coherent edges (s.lower v low) path where
  onStack_iff := h.onStack_iff
  entered_iff := h.entered_iff
  nodup := h.nodup
  number_lt := h.number_lt
  sorted := h.sorted
  path_sorted := h.path_sorted
  path_subset := h.path_subset
  toNoted := h.toNoted.lower hlow
  leads := h.leads
  returns := h.returns
  followed := h.followed
  closed := h.closed
  ne_nil := h.ne_nil
  component_iff := h.component_iff

/-! ### Leaving a node -/

section

variable {front rest : List (Fin n)}

/-- The nodes in some components and one more. -/
theorem mem_flatten_append_singleton {components : List (List (Fin n))} {c : List (Fin n)} :
    x ∈ (components ++ [c]).flatten ↔ x ∈ components.flatten ∨ x ∈ c := by
  rw [List.flatten_append, List.mem_append, List.flatten_singleton]

namespace Stacked

/-- What stands above a node on the stack has greater numbers, what stands below smaller ones. -/
theorem mem_front_or_rest (h : s.Stacked path) (hstack : s.stack = front ++ w :: rest) :
    (∀ x ∈ front, s.number w < s.number x) ∧ ∀ x ∈ rest, s.number x < s.number w := by
  have hsorted := h.sorted
  rw [hstack, List.pairwise_append] at hsorted
  obtain ⟨-, hbelow, habove⟩ := hsorted
  exact ⟨fun x hx => habove x hx w List.mem_cons_self, (List.pairwise_cons.mp hbelow).1⟩

theorem notMem_front (h : s.Stacked path) (hstack : s.stack = front ++ w :: rest) :
    w ∉ front :=
  fun hmem => Nat.lt_irrefl _ ((h.mem_front_or_rest hstack).1 w hmem)

/-- What stands on the stack from a node upwards. -/
theorem mem_segment_iff (h : s.Stacked path) (hstack : s.stack = front ++ w :: rest)
    (x : Fin n) : x ∈ front ++ [w] ↔ x ∈ s.stack ∧ s.number w ≤ s.number x := by
  obtain ⟨habove, hbelow⟩ := h.mem_front_or_rest hstack
  rw [hstack]
  constructor
  · intro hx
    rcases List.mem_append.mp hx with hx | hx
    · exact ⟨List.mem_append_left _ hx, (habove x hx).le⟩
    · obtain rfl := List.mem_singleton.mp hx
      exact ⟨List.mem_append_right front List.mem_cons_self, le_refl _⟩
  · rintro ⟨hx, hle⟩
    rcases List.mem_append.mp hx with hx | hx
    · exact List.mem_append_left _ hx
    · rcases List.mem_cons.mp hx with rfl | hx
      · exact List.mem_append_right front (List.mem_singleton_self _)
      · exact absurd (hbelow x hx) (by omega)

theorem mem_rest_iff (h : s.Stacked path) (hstack : s.stack = front ++ w :: rest)
    (x : Fin n) : x ∈ rest ↔ x ∈ s.stack ∧ s.number x < s.number w := by
  obtain ⟨habove, hbelow⟩ := h.mem_front_or_rest hstack
  rw [hstack]
  constructor
  · intro hx
    exact ⟨List.mem_append_right front (List.mem_cons_of_mem w hx), hbelow x hx⟩
  · rintro ⟨hx, hless⟩
    rcases List.mem_append.mp hx with hx | hx
    · exact absurd (habove x hx) (by omega)
    · rcases List.mem_cons.mp hx with rfl | hx
      · exact absurd hless (Nat.lt_irrefl _)
      · exact hx

theorem close (h : s.Stacked (w :: path)) (hstack : s.stack = front ++ w :: rest) :
    (s.close w).Stacked path := by
  rw [close_eq hstack (h.notMem_front hstack)]
  constructor
  case onStack_iff =>
    intro x
    change (unmark s.onStack (front ++ [w])).get x = true ↔ x ∈ rest
    rw [get_unmark, Bool.and_eq_true, h.onStack_iff, h.mem_rest_iff hstack, Bool.not_eq_true',
      List.contains_eq_mem, decide_eq_false_iff_not, h.mem_segment_iff hstack]
    constructor
    · rintro ⟨hnot, hx⟩
      exact ⟨hx, Nat.lt_of_not_le fun hle => hnot ⟨hx, hle⟩⟩
    · rintro ⟨hx, hlt⟩
      exact ⟨fun hmem => absurd hmem.2 (by omega), hx⟩
  case entered_iff =>
    intro x
    change s.Entered x ↔ x ∈ rest ∨ x ∈ (s.components ++ [front ++ [w]]).flatten
    rw [h.entered_iff, hstack, mem_flatten_append_singleton]
    simp only [List.mem_append, List.mem_cons, List.not_mem_nil, or_false]
    tauto
  case nodup =>
    have hnodup := h.nodup
    rw [hstack] at hnodup
    refine hnodup.perm (List.perm_iff_count.mpr fun x => ?_)
    simp only [List.flatten_append, List.flatten_singleton, List.count_append, List.count_cons,
      List.count_nil]
    omega
  case number_lt => exact h.number_lt
  case sorted =>
    have hsorted := h.sorted
    rw [hstack] at hsorted
    exact (List.pairwise_cons.mp (List.pairwise_append.mp hsorted).2.1).2
  case path_sorted => exact (List.pairwise_cons.mp h.path_sorted).2
  case path_subset =>
    intro x hx
    exact (h.mem_rest_iff hstack x).mpr ⟨h.path_subset (List.mem_cons_of_mem w hx),
      (List.pairwise_cons.mp h.path_sorted).1 x hx⟩

/-- A node that is left takes what is above it off the stack, or nothing. -/
theorem stack_leave (h : s.Stacked path) (hstack : s.stack = front ++ w :: rest) :
    (s.leave w).stack = rest ∨ (s.leave w).stack = s.stack := by
  unfold Walk.leave
  split
  · rw [close_eq hstack (h.notMem_front hstack)]
    exact .inl rfl
  · exact .inr rfl

end Stacked

theorem Noted.close (h : s.Stacked path) (hnoted : Noted edges s)
    (hstack : s.stack = front ++ w :: rest) : Noted edges (s.close w) := by
  rw [close_eq hstack (h.notMem_front hstack)]
  constructor
  case low_le => exact fun x hx => hnoted.low_le x ((h.mem_rest_iff hstack x).mp hx).1
  case low =>
    intro x hx
    obtain ⟨hmem, hlt⟩ := (h.mem_rest_iff hstack x).mp hx
    obtain ⟨y, hy, hnumber, hreaches⟩ := hnoted.low x hmem
    have hle := hnoted.low_le x hmem
    exact ⟨y, (h.mem_rest_iff hstack y).mpr ⟨hy, by omega⟩, hnumber, hreaches⟩

namespace Coherent

theorem mem_components_of_reaches (h : Coherent edges s path) (hx : x ∈ s.components.flatten)
    (hreaches : Reaches edges x v) : v ∈ s.components.flatten := by
  induction hreaches with
  | refl => exact hx
  | tail _ hedge ih => exact h.closed _ ih _ hedge

/-- A node that is left leads to nothing that the walk has not come to, and nothing above it
does. -/
theorem entered_of_edge (h : Coherent edges s (w :: path))
    (hcovers : Covers edges s w (edges.get w)) {u : Fin n} (hu : s.Entered u) (hnot : u ∉ path)
    (hx : x ∈ edges.get u) : s.Entered x := by
  by_cases huw : u = w
  · subst huw
    exact hcovers.entered x hx
  · exact h.followed u hu (fun hmem => (List.mem_cons.mp hmem).elim huw hnot) x hx

/-- A node on the path cannot stand above the last one. -/
theorem notMem_path (h : Coherent edges s (w :: path)) {u : Fin n}
    (hle : s.number w ≤ s.number u) : u ∉ path := by
  intro hmem
  have hless := (List.pairwise_cons.mp h.path_sorted).1 u hmem
  omega

/-- What has been seen from a node upwards is not below the number that is noted for the node. -/
theorem low_le_of_edge (h : Coherent edges s (w :: path))
    (hcovers : Covers edges s w (edges.get w)) {u : Fin n} (hu : u ∈ s.stack)
    (hle : s.number w ≤ s.number u) (hedge : x ∈ edges.get u)
    (hx : x ∈ s.stack) : s.lowlink.get w ≤ s.number x := by
  obtain ⟨front, rest, hstack⟩ := List.append_of_mem (h.path_subset List.mem_cons_self)
  rcases List.mem_append.mp ((h.mem_segment_iff hstack u).mpr ⟨hu, hle⟩) with hfront | hlast
  · exact hcovers.above u hu ((h.mem_front_or_rest hstack).1 u hfront) x hedge hx
  · obtain rfl := List.mem_singleton.mp hlast
    exact hcovers.own x hedge hx

/-- If nothing smaller has been noted for a node when it is left, what stands from it upwards
leads nowhere but there and into the components. -/
theorem mem_segment_of_reaches (h : Coherent edges s (w :: path))
    (hcovers : Covers edges s w (edges.get w)) (hlow : s.lowlink.get w = s.number w)
    (hstack : s.stack = front ++ w :: rest) {u : Fin n} (hu : u ∈ front ++ [w])
    (hreaches : Reaches edges u x) : x ∈ front ++ [w] ∨ x ∈ s.components.flatten := by
  induction hreaches with
  | refl => exact .inl hu
  | @tail y x _ hedge ih =>
      rcases ih with hy | hy
      · obtain ⟨hmem, hle⟩ := (h.mem_segment_iff hstack y).mp hy
        have hentered : s.Entered x := h.entered_of_edge hcovers
          (h.entered_of_mem hmem) (h.notMem_path hle) hedge
        refine ((h.entered_iff x).mp hentered).imp_left fun hx => ?_
        refine (h.mem_segment_iff hstack x).mpr ⟨hx, hlow ▸ ?_⟩
        exact h.low_le_of_edge hcovers hmem hle hedge hx
      · exact .inr (h.closed y hy x hedge)

/-- What stands from a node on the path upwards can be reached from it, and leads back to it. -/
theorem connected_of_mem_segment (h : Coherent edges s (w :: path))
    (hstack : s.stack = front ++ w :: rest) (hx : x ∈ front ++ [w]) : Connected edges w x := by
  obtain ⟨hmem, hle⟩ := (h.mem_segment_iff hstack x).mp hx
  refine ⟨h.leads w List.mem_cons_self x hmem hle, ?_⟩
  obtain ⟨v, hv, -, hback⟩ := h.returns x hmem
  refine hback.trans (h.leads v hv w (h.path_subset List.mem_cons_self) ?_)
  rcases List.mem_cons.mp hv with rfl | hv
  · exact le_refl _
  · exact ((List.pairwise_cons.mp h.path_sorted).1 v hv).le

/-- What is closed is a component. -/
theorem mem_segment_iff_connected (h : Coherent edges s (w :: path))
    (hcovers : Covers edges s w (edges.get w)) (hlow : s.lowlink.get w = s.number w)
    (hstack : s.stack = front ++ w :: rest) (hv : v ∈ front ++ [w]) (x : Fin n) :
    x ∈ front ++ [w] ↔ Connected edges v x := by
  obtain ⟨hto, hback⟩ := h.connected_of_mem_segment hstack hv
  constructor
  · intro hx
    obtain ⟨hto', hback'⟩ := h.connected_of_mem_segment hstack hx
    exact ⟨hback.trans hto', hback'.trans hto⟩
  · rintro ⟨hvx, hxv⟩
    refine (h.mem_segment_of_reaches hcovers hlow hstack hv hvx).resolve_right fun hx => ?_
    -- otherwise the node itself would be in a component already
    have hclosed := h.mem_components_of_reaches hx hxv
    have hmem := ((h.mem_segment_iff hstack v).mp hv).1
    exact (List.nodup_append.mp h.nodup).2.2 v hmem v hclosed rfl

theorem close (h : Coherent edges s (w :: path)) (hcovers : Covers edges s w (edges.get w))
    (hlow : s.lowlink.get w = s.number w) (hstack : s.stack = front ++ w :: rest) :
    Coherent edges (s.close w) path := by
  have hstacked := h.toStacked.close hstack
  have hnoted := h.toNoted.close h.toStacked hstack
  rw [close_eq hstack (h.notMem_front hstack)] at hstacked hnoted ⊢
  constructor
  case toStacked => exact hstacked
  case toNoted => exact hnoted
  case leads =>
    intro v hv x hx hle
    exact h.leads v (List.mem_cons_of_mem w hv) x ((h.mem_rest_iff hstack x).mp hx).1 hle
  case returns =>
    intro x hx
    obtain ⟨hmem, hlt⟩ := (h.mem_rest_iff hstack x).mp hx
    obtain ⟨v, hv, hle, hreaches⟩ := h.returns x hmem
    rcases List.mem_cons.mp hv with rfl | hv
    · exact absurd hle (by omega)
    · exact ⟨v, hv, hle, hreaches⟩
  case followed => exact fun u hu hnot x hx => h.entered_of_edge hcovers hu hnot hx
  case closed =>
    intro u hu x hx
    rw [mem_flatten_append_singleton] at hu ⊢
    rcases hu with hu | hu
    · exact .inl (h.closed u hu x hx)
    · exact (h.mem_segment_of_reaches hcovers hlow hstack hu
        ((Reaches.refl edges u).tail hx)).symm
  case ne_nil =>
    intro c hc
    rcases List.mem_append.mp hc with hc | hc
    · exact h.ne_nil c hc
    · rw [List.mem_singleton.mp hc]
      simp
  case component_iff =>
    intro c hc v hv x
    rcases List.mem_append.mp hc with hc | hc
    · exact h.component_iff c hc v hv x
    · obtain rfl := List.mem_singleton.mp hc
      exact h.mem_segment_iff_connected hcovers hlow hstack hv x

/-- A node stays on the stack if it leads to one below it. -/
theorem stay (h : Coherent edges s (w :: path)) (hcovers : Covers edges s w (edges.get w))
    (hlow : s.lowlink.get w < s.number w) : Coherent edges s path where
  onStack_iff := h.onStack_iff
  entered_iff := h.entered_iff
  nodup := h.nodup
  number_lt := h.number_lt
  sorted := h.sorted
  path_sorted := (List.pairwise_cons.mp h.path_sorted).2
  path_subset := fun _ hx => h.path_subset (List.mem_cons_of_mem w hx)
  leads := fun v hv => h.leads v (List.mem_cons_of_mem w hv)
  returns := by
    intro x hx
    obtain ⟨v, hv, hle, hreaches⟩ := h.returns x hx
    rcases List.mem_cons.mp hv with rfl | hv
    · -- go on from the node to the one below it, and from there back to the path
      obtain ⟨y, hy, hnumber, hdown⟩ := h.low v (h.path_subset List.mem_cons_self)
      obtain ⟨g, hg, hle', hback⟩ := h.returns y hy
      rcases List.mem_cons.mp hg with rfl | hg
      · omega
      · exact ⟨g, hg, by omega, (hreaches.trans hdown).trans hback⟩
    · exact ⟨v, hv, hle, hreaches⟩
  followed := fun u hu hnot x hx => h.entered_of_edge hcovers hu hnot hx
  closed := h.closed
  ne_nil := h.ne_nil
  component_iff := h.component_iff
  low_le := h.low_le
  low := h.low

theorem leave (h : Coherent edges s (w :: path)) (hcovers : Covers edges s w (edges.get w)) :
    Coherent edges (s.leave w) path := by
  have hmem : w ∈ s.stack := h.path_subset List.mem_cons_self
  have hle := h.low_le w hmem
  have hindex : s.index.get w = some (s.number w) := by
    obtain ⟨number, hnumber⟩ :=
      Option.ne_none_iff_exists'.mp (h.entered_of_mem hmem)
    rw [number_of_index hnumber, hnumber]
  unfold Walk.leave
  split
  · rename_i hlow
    rw [hindex, Option.some_inj] at hlow
    obtain ⟨front, rest, hstack⟩ := List.append_of_mem hmem
    exact h.close hcovers hlow hstack
  · rename_i hne
    rw [hindex, Option.some_inj] at hne
    exact h.stay hcovers (by omega)

end Coherent

end

/-! ### Coming back from a node -/

section

variable {seen : List (Fin n)}

theorem Keeps.comeBack (hs : Coherent edges s (v :: path)) (hw : s.index.get w = none)
    (ht : Coherent edges t (w :: v :: path)) (hkeeps : Keeps (s.enter w) t w) :
    Keeps s (t.leave w) v := by
  have hne : ∀ {x : Fin n}, s.Entered x → w ≠ x := by
    rintro x hx rfl
    exact hx hw
  have hv : s.Entered v := hs.entered_of_mem (hs.path_subset List.mem_cons_self)
  have hlowlink : ∀ x : Fin n, s.Entered x → t.lowlink.get x = s.lowlink.get x := by
    intro x hx
    rw [hkeeps.lowlink x (hne hx).symm (entered_enter.mpr (.inr hx)), lowlink_enter,
      if_neg (hne hx)]
  constructor
  case index =>
    intro x hx
    rw [index_leave, hkeeps.index x (entered_enter.mpr (.inr hx)), index_enter, if_neg (hne hx)]
  case lowlink =>
    intro x _ hx
    rw [lowlink_leave]
    exact hlowlink x hx
  case lowered =>
    rw [lowlink_leave, hlowlink v hv]
  case stack =>
    obtain ⟨new, hnew⟩ := hkeeps.stack
    have hstack : t.stack = new ++ w :: s.stack := hnew
    rcases ht.stack_leave hstack with hleft | hleft
    · exact ⟨[], hleft⟩
    · exact ⟨new ++ [w], by rw [hleft, hstack, List.append_assoc, List.singleton_append]⟩

/-- What is on the stack when the walk leaves a node was there before it came to the node, or is
not below the node. -/
theorem mem_stack_leave (ht : Coherent edges t (w :: path)) (hkeeps : Keeps (s.enter w) t w)
    (hx : x ∈ (t.leave w).stack) :
    x ∈ t.stack ∧ (x ∈ s.stack ∨ t.number w ≤ t.number x) := by
  obtain ⟨new, hnew⟩ := hkeeps.stack
  have hstack : t.stack = new ++ w :: s.stack := hnew
  have hmem : x ∈ t.stack := by
    rcases ht.stack_leave hstack with hleft | hleft
    · rw [hleft] at hx
      rw [hstack]
      exact List.mem_append_right new (List.mem_cons_of_mem w hx)
    · rwa [hleft] at hx
  refine ⟨hmem, or_iff_not_imp_right.mpr fun hless => ?_⟩
  exact (ht.mem_rest_iff hstack x).mpr ⟨hmem, Nat.lt_of_not_le hless⟩

/-- What the walk has seen at a node when it is back from a successor. -/
theorem Covers.comeBack (hs : Coherent edges s (v :: path)) (hcovers : Covers edges s v seen)
    (hw : s.index.get w = none) (ht : Coherent edges t (w :: v :: path))
    (hinner : Covers edges t w (edges.get w)) (hkeeps : Keeps (s.enter w) t w) :
    Covers edges ((t.leave w).lower v ((t.leave w).lowlink.get w)) v (seen ++ [w]) := by
  have hback : Keeps s (t.leave w) v := .comeBack hs hw ht hkeeps
  have hnumber : ∀ x ∈ s.stack, (t.leave w).number x = s.number x :=
    fun x hx => hback.number (hs.entered_of_mem hx)
  -- the number that is noted in the end is not greater than any of the two
  have hlow : ((t.leave w).lower v ((t.leave w).lowlink.get w)).lowlink.get v =
      min ((t.leave w).lowlink.get v) (t.lowlink.get w) := by
    rw [lowlink_lower, if_pos rfl, lowlink_leave]
  have hlow_old :
      ((t.leave w).lower v ((t.leave w).lowlink.get w)).lowlink.get v ≤ s.lowlink.get v :=
    (hlow.trans_le (min_le_left _ _)).trans hback.lowered
  have hlow_new :
      ((t.leave w).lower v ((t.leave w).lowlink.get w)).lowlink.get v ≤ t.lowlink.get w :=
    hlow.trans_le (min_le_right _ _)
  have hlow_w : t.lowlink.get w ≤ (t.leave w).number w := by
    rw [number_leave]
    exact ht.low_le w (ht.path_subset List.mem_cons_self)
  have hcases : ∀ x ∈ (t.leave w).stack,
      x ∈ t.stack ∧ (x ∈ s.stack ∨ (t.leave w).number w ≤ (t.leave w).number x) := by
    intro x hx
    rw [number_leave, number_leave]
    exact mem_stack_leave ht hkeeps hx
  constructor
  case entered =>
    intro x hx
    change (t.leave w).Entered x
    rcases List.mem_append.mp hx with hx | hx
    · exact hback.entered (hcovers.entered x hx)
    · obtain rfl := List.mem_singleton.mp hx
      exact entered_leave.mpr (hkeeps.entered (entered_enter.mpr (.inl rfl)))
  case own =>
    intro x hx hstack
    change _ ≤ (t.leave w).number x
    rcases (hcases x hstack).2 with hold | hle
    · rcases List.mem_append.mp hx with hx | hx
      · rw [hnumber x hold]
        exact hlow_old.trans (hcovers.own x hx hold)
      · obtain rfl := List.mem_singleton.mp hx
        exact hlow_new.trans hlow_w
    · exact hlow_new.trans (hlow_w.trans hle)
  case above =>
    intro u hu hless x hedge hx
    change (t.leave w).number v < (t.leave w).number u at hless
    change _ ≤ (t.leave w).number x
    obtain ⟨hxt, hold | hle⟩ := hcases x hx
    · obtain ⟨hut, huold | hule⟩ := hcases u hu
      · rw [hnumber v (hs.path_subset List.mem_cons_self), hnumber u huold] at hless
        rw [hnumber x hold]
        exact hlow_old.trans (hcovers.above u huold hless x hedge hold)
      · rw [number_leave, number_leave] at hule
        rw [number_leave]
        exact hlow_new.trans (ht.low_le_of_edge hinner hut hule hedge hxt)
    · exact hlow_new.trans (hlow_w.trans hle)

/-- What has been noted for a successor may be noted for the node. -/
theorem Coherent.lower_leave (ht : Coherent edges t (w :: v :: path))
    (hinner : Covers edges t w (edges.get w)) (hedge : w ∈ edges.get v) :
    Coherent edges ((t.leave w).lower v ((t.leave w).lowlink.get w)) (v :: path) := by
  have hw : w ∈ t.stack := ht.path_subset List.mem_cons_self
  have hv : v ∈ t.stack := ht.path_subset (List.mem_cons_of_mem w List.mem_cons_self)
  refine (ht.leave hinner).lower ?_
  rw [lowlink_leave]
  by_cases hclosed : some (t.lowlink.get w) = t.index.get w
  · -- the number of the successor itself is greater than that of the node
    have hless := (List.pairwise_cons.mp ht.path_sorted).1 v List.mem_cons_self
    rw [number_of_index hclosed.symm] at hless
    exact .inl ((ht.low_le v hv).trans hless.le)
  · rw [Walk.leave, if_neg hclosed]
    obtain ⟨x, hx, hnumber, hreaches⟩ := ht.low w hw
    exact .inr ⟨x, hx, hnumber, ((Reaches.refl edges v).tail hedge).trans hreaches⟩

/-! ### Looking at a successor that is known -/

theorem Covers.enter (h : Coherent edges s path) (hw : s.index.get w = none) :
    Covers edges (s.enter w) w [] where
  entered := fun x hx => absurd hx List.not_mem_nil
  own := fun x hx => absurd hx List.not_mem_nil
  above := by
    intro u hu hless x _ _
    -- nothing stands above the node
    rcases List.mem_cons.mp hu with rfl | hu
    · exact absurd hless (Nat.lt_irrefl _)
    · exact absurd (h.number_enter_lt hw hu) (Nat.lt_asymm hless)

theorem Covers.lower (hcovers : Covers edges s v seen) {number : Nat}
    (hw : s.index.get w = some number) : Covers edges (s.lower v number) v (seen ++ [w]) := by
  have hlow : (s.lower v number).lowlink.get v = min (s.lowlink.get v) number := by
    rw [lowlink_lower, if_pos rfl]
  constructor
  case entered =>
    intro x hx
    rcases List.mem_append.mp hx with hx | hx
    · exact hcovers.entered x hx
    · obtain rfl := List.mem_singleton.mp hx
      exact fun hnone => Option.some_ne_none number (hw.symm.trans hnone)
  case own =>
    intro x hx hstack
    rw [hlow]
    rcases List.mem_append.mp hx with hx | hx
    · exact (min_le_left _ _).trans (hcovers.own x hx hstack)
    · obtain rfl := List.mem_singleton.mp hx
      exact (min_le_right _ _).trans (number_of_index hw).ge
  case above =>
    intro u hu hless x hedge hx
    rw [hlow]
    exact (min_le_left _ _).trans (hcovers.above u hu hless x hedge hx)

theorem Covers.skip (hcovers : Covers edges s v seen) (hw : s.Entered w) (hnot : w ∉ s.stack) :
    Covers edges s v (seen ++ [w]) where
  entered := by
    intro x hx
    rcases List.mem_append.mp hx with hx | hx
    · exact hcovers.entered x hx
    · rwa [List.mem_singleton.mp hx]
  own := by
    intro x hx hstack
    rcases List.mem_append.mp hx with hx | hx
    · exact hcovers.own x hx hstack
    · exact absurd (List.mem_singleton.mp hx ▸ hstack) hnot
  above := hcovers.above

end

end Walk

/-! ## What holds of a whole walk -/

open Walk

theorem Walks.coherent {todo seen : List (Fin n)} (h : Walks edges v todo s t)
    (hs : Coherent edges s (v :: path)) (hedges : edges.get v = seen ++ todo)
    (hcovers : Covers edges s v seen) :
    Coherent edges t (v :: path) ∧ Covers edges t v (edges.get v) ∧ Keeps s t v := by
  induction h generalizing path seen with
  | @done v s =>
      rw [List.append_nil] at hedges
      exact ⟨hs, hedges ▸ hcovers, .refl s v⟩
  | @enter v w todo s t u h inner _ ih ih' =>
      have hedge : w ∈ edges.get v := by
        rw [hedges]
        exact List.mem_append_right seen List.mem_cons_self
      -- all nodes on the path lead to the last one, and so to the successor
      have hpath : ∀ x ∈ v :: path, Reaches edges x w := by
        intro x hx
        have hv := hs.path_subset List.mem_cons_self
        refine (hs.leads x hx v hv ?_).tail hedge
        rcases List.mem_cons.mp hx with rfl | hx
        · exact le_refl _
        · exact ((List.pairwise_cons.mp hs.path_sorted).1 x hx).le
      obtain ⟨ht, hinner, hkeeps⟩ := ih (hs.enter h hpath) rfl (.enter hs h)
      have hback : Keeps s (t.leave w) v := .comeBack hs h ht hkeeps
      rw [List.append_cons] at hedges
      obtain ⟨hu, hall, hkeeps'⟩ := ih' (ht.lower_leave hinner hedge) hedges
        (hcovers.comeBack hs h ht hinner hkeeps)
      exact ⟨hu, hall, (hback.trans (.lower (t.leave w) v _)).trans hkeeps'⟩
  | @back v w todo s u number h hstack _ ih =>
      have hw := (hs.onStack_iff w).mp hstack
      have hedge : w ∈ edges.get v := by
        rw [hedges]
        exact List.mem_append_right seen List.mem_cons_self
      have hlow : Coherent edges (s.lower v number) (v :: path) := hs.lower
        (.inr ⟨w, hw, number_of_index h, (Reaches.refl edges v).tail hedge⟩)
      rw [List.append_cons] at hedges
      obtain ⟨hu, hall, hkeeps⟩ := ih hlow hedges (hcovers.lower h)
      exact ⟨hu, hall, (Keeps.lower s v number).trans hkeeps⟩
  | @skip v w todo s u number h hstack _ ih =>
      have hnot : w ∉ s.stack := fun hmem => by
        rw [(hs.onStack_iff w).mpr hmem] at hstack
        cases hstack
      have hw : s.Entered w := fun hnone => Option.some_ne_none number (h.symm.trans hnone)
      rw [List.append_cons] at hedges
      exact ih hs hedges (hcovers.skip hw hnot)

/-- Between two of the nodes that a walk starts from, there is no path. -/
theorem Runs.coherent {nodes : List (Fin n)} (h : Runs edges nodes s t)
    (hs : Coherent edges s []) :
    Coherent edges t [] ∧ (∀ x, s.Entered x → t.Entered x) ∧ ∀ v ∈ nodes, t.Entered v := by
  induction h with
  | done => exact ⟨hs, fun _ hx => hx, fun v hv => absurd hv List.not_mem_nil⟩
  | @enter v nodes s t u h inner _ ih =>
      obtain ⟨ht, hcovers, hkeeps⟩ := inner.coherent
        (hs.enter h fun x hx => absurd hx List.not_mem_nil) rfl (.enter hs h)
      obtain ⟨hu, hmono, hall⟩ := ih (ht.leave hcovers)
      have hentered : ∀ x, (s.enter v).Entered x → u.Entered x :=
        fun x hx => hmono x (entered_leave.mpr (hkeeps.entered hx))
      refine ⟨hu, fun x hx => hentered x (entered_enter.mpr (.inr hx)), fun x hx => ?_⟩
      rcases List.mem_cons.mp hx with rfl | hx
      · exact hentered x (entered_enter.mpr (.inl rfl))
      · exact hall x hx
  | @skip v nodes s u h _ ih =>
      obtain ⟨hu, hmono, hall⟩ := ih hs
      refine ⟨hu, hmono, fun x hx => ?_⟩
      rcases List.mem_cons.mp hx with rfl | hx
      · exact hmono x h
      · exact hall x hx

theorem coherent_start (edges : Graph n) : Coherent edges (Walk.start n) [] := by
  have hentered : ∀ v, ¬ (Walk.start n).Entered v := by
    intro v hv
    exact hv (by simp [Walk.start])
  constructor
  case toStacked =>
    constructor
    case entered_iff =>
      intro v
      refine iff_of_false (hentered v) ?_
      simp [Walk.start]
    case number_lt => exact fun v hv => absurd hv (hentered v)
    all_goals simp [Walk.start]
  case toNoted => constructor <;> simp [Walk.start]
  case followed => exact fun v hv => absurd hv (hentered v)
  all_goals simp [Walk.start]

/-- Some lists of nodes are the strongly connected components of a graph. -/
structure AreComponents (edges : Graph n) (components : List (List (Fin n))) : Prop where
  ne_nil : ∀ c ∈ components, c ≠ []
  count : ∀ v, components.flatten.count v = 1
  connected : ∀ v w, (∃ c ∈ components, v ∈ c ∧ w ∈ c) ↔ Connected edges v w

/-- When there is no path, the components are complete for the nodes that the walk has come
to. -/
theorem Walk.Coherent.areComponents (h : Coherent edges s []) (hall : ∀ v, s.Entered v) :
    AreComponents edges s.components := by
  have hstack : s.stack = [] := by
    refine List.eq_nil_iff_forall_not_mem.mpr fun x hx => ?_
    obtain ⟨v, hv, -⟩ := h.returns x hx
    exact absurd hv List.not_mem_nil
  have hmem : ∀ v, v ∈ s.components.flatten := by
    intro v
    refine ((h.entered_iff v).mp (hall v)).resolve_left ?_
    rw [hstack]
    exact List.not_mem_nil
  have hnodup := h.nodup
  rw [hstack, List.nil_append] at hnodup
  refine ⟨h.ne_nil, fun v => List.count_eq_one_of_mem hnodup (hmem v), fun v w => ?_⟩
  constructor
  · rintro ⟨c, hc, hv, hw⟩
    exact (h.component_iff c hc v hv w).mp hw
  · intro hconnected
    obtain ⟨c, hc, hv⟩ := List.mem_flatten.mp (hmem v)
    exact ⟨c, hc, hv, (h.component_iff c hc v hv w).mpr hconnected⟩

/-- Behind the walk from all nodes there is no path, and it has come to all of them. -/
theorem areComponents_all (edges : Graph n) : AreComponents edges (all edges) := by
  obtain ⟨hs, -, hall⟩ :=
    (runs_connectAll edges (Walk.start n) (List.finRange n)).coherent (coherent_start edges)
  exact hs.areComponents fun v => hall v (List.mem_finRange v)

/-- The walk from all nodes in order comes to an end in one way only, and what it has found are
the strongly connected components. -/
theorem all_areComponents (edges : Graph n) :
    (∀ s, Runs edges (List.finRange n) (Walk.start n) s ↔
      s = connectAll edges (Walk.start n) (List.finRange n)) ∧
    AreComponents edges (all edges) := by
  have hrun := runs_connectAll edges (Walk.start n) (List.finRange n)
  refine ⟨fun s => ⟨fun h => hrun.unique h, ?_⟩, areComponents_all edges⟩
  rintro rfl
  exact hrun

/-- Two nodes on a circle, one that leads to it, and one by itself. -/
example : all (⟨#[[1], [0, 1], [0], []], rfl⟩ : Graph 4) = [[1, 0], [2], [3]] := by decide

end Components
end ModelWorkspace
