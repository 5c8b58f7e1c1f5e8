import Mathlib.Tactic.Common

/-! Reachability along edges, and the worklist that computes it. -/

namespace Reachability

variable {α : Type}

/-- What the seeds reach along edges through live nodes. -/
inductive Reach (live seed : α → Prop) (edge : α → α → Prop) : α → Prop
  | seed {x : α} : seed x → live x → Reach live seed edge x
  | edge {x y : α} : Reach live seed edge x → edge x y → live y → Reach live seed edge y

/-- What is reached is live. -/
theorem Reach.live {live seed : α → Prop} {edge : α → α → Prop} {x : α}
    (reached : Reach live seed edge x) : live x := by
  cases reached with
  | seed _ alive => exact alive
  | edge _ _ alive => exact alive

/-- A worklist in progress: only reached nodes are marked or pending, every seed is, and every edge of a
marked node leads to such a node. -/
structure Explored (live seed : α → Prop) (edge : α → α → Prop) (marked : α → Prop) (todo : List α) : Prop where
  sound : ∀ x, marked x → Reach live seed edge x
  pending : ∀ x ∈ todo, live x → Reach live seed edge x
  seeds : ∀ x, seed x → live x → marked x ∨ x ∈ todo
  edges : ∀ x y, marked x → edge x y → live y → marked y ∨ y ∈ todo

variable {live seed : α → Prop} {edge : α → α → Prop} {marked marked' : α → Prop} {todo todo' : List α} {x : α}

/-- A worklist starts with the seeds. -/
theorem Explored.start (unmarked : ∀ x, ¬ marked x) (all : ∀ x, live x → (x ∈ todo ↔ seed x)) :
    Explored live seed edge marked todo where
  sound x here := absurd here (unmarked x)
  pending x member alive := .seed ((all x alive).mp member) alive
  seeds x start alive := .inr ((all x alive).mpr start)
  edges x _ here := absurd here (unmarked x)

/-- A pending node that is not live, or marked before, is skipped. -/
theorem Explored.skip (explored : Explored live seed edge marked (x :: todo)) (idle : live x → marked x) :
    Explored live seed edge marked todo where
  sound := explored.sound
  pending y member := explored.pending y (List.mem_cons_of_mem x member)
  seeds y start alive := by
    rcases explored.seeds y start alive with here | member
    · exact .inl here
    · rcases List.mem_cons.mp member with rfl | member
      · exact .inl (idle alive)
      · exact .inr member
  edges y z here step alive := by
    rcases explored.edges y z here step alive with there | member
    · exact .inl there
    · rcases List.mem_cons.mp member with rfl | member
      · exact .inl (idle alive)
      · exact .inr member

/-- A live pending node is marked, and what it leads to becomes pending. -/
theorem Explored.visit (explored : Explored live seed edge marked (x :: todo)) (alive : live x)
    (marks : ∀ y, marked' y ↔ marked y ∨ y = x)
    (grows : ∀ y, live y → (y ∈ todo' ↔ y ∈ todo ∨ edge x y)) :
    Explored live seed edge marked' todo' := by
  have reached : Reach live seed edge x := explored.pending x List.mem_cons_self alive
  -- What was marked or pending still is.
  have keeps (y) (alive : live y) (old : marked y ∨ y ∈ x :: todo) : marked' y ∨ y ∈ todo' := by
    rcases old with here | member
    · exact .inl ((marks y).mpr (.inl here))
    · rcases List.mem_cons.mp member with rfl | member
      · exact .inl ((marks y).mpr (.inr rfl))
      · exact .inr ((grows y alive).mpr (.inl member))
  refine ⟨fun y here => ?_, fun y member alive' => ?_, fun y start alive' => ?_, fun y z here step alive' => ?_⟩
  · rcases (marks y).mp here with old | rfl
    · exact explored.sound y old
    · exact reached
  · rcases (grows y alive').mp member with old | step
    · exact explored.pending y (List.mem_cons_of_mem x old) alive'
    · exact .edge reached step alive'
  · exact keeps y alive' (explored.seeds y start alive')
  · rcases (marks y).mp here with old | rfl
    · exact keeps z alive' (explored.edges y z old step alive')
    · exact .inr ((grows z alive').mpr (.inr step))

/-- With nothing pending exactly the reached nodes are marked. -/
theorem Explored.done (explored : Explored live seed edge marked []) (y : α) :
    marked y ↔ Reach live seed edge y := by
  refine ⟨explored.sound y, fun reached => ?_⟩
  induction reached with
  | seed start alive => exact (explored.seeds _ start alive).resolve_right List.not_mem_nil
  | edge _ step alive ih => exact (explored.edges _ _ ih step alive).resolve_right List.not_mem_nil

end Reachability
