import Mathlib.Data.List.Sort
import Xezim.Csp.Preferences
import Xezim.Csp.Soundness

/-! What a class demands of its variables, that the translation asks for exactly that, and what a solve with
preferences leaves in the object. -/

namespace Xezim

section Demands

mutual

/-- The preferences inside an item. -/
def ConstraintItem.softs : ConstraintItem → Nat
  | .hard .. => 0
  | .soft item => item.softs + 1
  | .block items => softsOf items
  | .ifElse _ _ _ thn els => thn.softs + els.softs

/-- The preferences inside the items of a list. -/
def ConstraintItem.softsOf : List ConstraintItem → Nat
  | [] => 0
  | item :: items => item.softs + softsOf items

end

mutual

/-- The carry nodes of an item, which are added whether or not a preference around it is enabled. -/
def ConstraintItem.carries : ConstraintItem → List Node
  | .hard _ carries _ _ => carries
  | .soft item => item.carries
  | .block items => carriesOf items
  | .ifElse _ _ _ thn els => thn.carries ++ els.carries

/-- The carry nodes of the items of a list. -/
def ConstraintItem.carriesOf : List ConstraintItem → List Node
  | [] => []
  | item :: items => item.carries ++ carriesOf items

end

mutual

/-- An assignment meets an item whose preferences are numbered from `id` on: a preference counts when it
is enabled. -/
def ConstraintItem.Holds (csp : Csp) (a : Nat → Int) (enabled : Option (List Nat)) :
    ConstraintItem → Nat → Prop
  | .hard node _ _ _, _ => nodeHolds csp a node
  | .soft item, id => (enabled.all fun ids => decide (id ∈ ids)) = true → item.Holds csp a enabled (id + 1)
  | .block items, id => HoldAll csp a enabled items id
  | .ifElse cond _ _ thn els, id =>
    (nodeHolds csp a cond → thn.Holds csp a enabled id) ∧
      (¬ nodeHolds csp a cond → els.Holds csp a enabled (id + thn.softs))

/-- An assignment meets every item of a list. -/
def ConstraintItem.HoldAll (csp : Csp) (a : Nat → Int) (enabled : Option (List Nat)) :
    List ConstraintItem → Nat → Prop
  | [], _ => True
  | item :: items, id =>
    item.Holds csp a enabled id ∧ HoldAll csp a enabled items (id + item.softs)

end

variable {csp : Csp} {a : Nat → Int} {enabled : Option (List Nat)}

theorem nodeHolds_cspAnd (ns : List Node) : nodeHolds csp a (cspAnd ns) ↔ allHold csp a ns := by
  match ns with
  | [] => simp [cspAnd, nodeHolds, allHold]
  | [n] => simp [cspAnd, allHold]
  | m :: n :: ns => simp [cspAnd, nodeHolds]

theorem allHold_append (ms ns : List Node) :
    allHold csp a (ms ++ ns) ↔ allHold csp a ms ∧ allHold csp a ns := by
  induction ms with
  | nil => simp [allHold]
  | cons m ms ih => simp [allHold, ih, and_assoc]

theorem allHold_iff (ns : List Node) : allHold csp a ns ↔ ∀ n ∈ ns, nodeHolds csp a n := by
  induction ns with
  | nil => simp [allHold]
  | cons n ns ih => simp [allHold, ih]

/-- Leaving `True` out asks for the same. -/
theorem allHold_unlessTrue (n : Node) : allHold csp a n.unlessTrue ↔ nodeHolds csp a n := by
  cases n with
  | true => simp [Node.unlessTrue, allHold, nodeHolds]
  | _ => simp [Node.unlessTrue, allHold]

/-- A conditional node asks for the branch its condition selects. -/
theorem nodeHolds_cspIf (cond ncond thn els : Node) : nodeHolds csp a (cspIf cond ncond thn els) ↔
    (nodeHolds csp a cond → nodeHolds csp a thn) ∧ (¬ nodeHolds csp a cond → nodeHolds csp a els) := by
  have ite_iff : nodeHolds csp a (.ite cond ncond thn els) ↔
      (nodeHolds csp a cond → nodeHolds csp a thn) ∧ (¬ nodeHolds csp a cond → nodeHolds csp a els) := by
    have branches : nodeHolds csp a (.ite cond ncond thn els) =
        (nodeHolds csp a cond ∧ nodeHolds csp a thn ∨ ¬ nodeHolds csp a cond ∧ nodeHolds csp a els) := by
      rw [nodeHolds]
    rw [branches]
    by_cases holds : nodeHolds csp a cond <;> simp [holds]
  -- The simplified conditionals say the same as the full one.
  unfold cspIf
  split
  · simp [nodeHolds]
  · simp [nodeHolds]
  · simp [nodeHolds]
  · exact ite_iff

/-- What the translation of an item adds to a problem: its preferences, its carry nodes, and a node that
asks for what the item demands. -/
structure Translates (csp : Csp) (a : Nat → Int) (softs : Nat) (carries : List Node) (demand asked : Prop)
    (t u : Translated) : Prop where
  counted : u.priority.length = t.priority.length + softs
  nodes : u.nodes = t.nodes ++ carries
  asks : asked ↔ demand

mutual

/-- `csp_item` asks for what the item demands. -/
theorem translates_item (csp : Csp) (a : Nat → Int) (enabled : Option (List Nat))
    (rank : Nat × Nat) : ∀ (item : ConstraintItem) (t : Translated),
    Translates csp a item.softs item.carries (item.Holds csp a enabled t.priority.length)
      (nodeHolds csp a (cspItem rank enabled item t).1) t (cspItem rank enabled item t).2
  | .hard node carries dists check, t => ⟨rfl, rfl, Iff.rfl⟩
  | .soft item, t => by
    have inner := translates_item csp a enabled rank item
      { t with priority := t.priority ++ [(rank.1, rank.2, t.priority.length)] }
    unfold cspItem
    dsimp only
    generalize cspItem rank enabled item _ = r at inner ⊢
    obtain ⟨node, u⟩ := r
    obtain ⟨counted, nodes, asks⟩ := inner
    simp only [List.length_append, List.length_singleton] at counted asks
    unfold ConstraintItem.softs ConstraintItem.carries ConstraintItem.Holds
    dsimp only
    -- A dropped soft item translates to a true node; a kept one to its own.
    split
    · rename_i kept
      exact ⟨by dsimp only; omega, nodes, by simp only [kept, true_imp_iff]; exact asks⟩
    · rename_i dropped
      exact ⟨by dsimp only; omega, nodes, by simp [nodeHolds, dropped]⟩
  | .block items, t => by
    obtain ⟨counted, nodes, asks⟩ := translates_items csp a enabled rank items t
    unfold cspItem ConstraintItem.softs ConstraintItem.carries ConstraintItem.Holds
    exact ⟨counted, nodes, (nodeHolds_cspAnd _).trans asks⟩
  -- The else branch numbers its soft items after those of the then branch.
  | .ifElse cond ncond holds thn els, t => by
    have first := translates_item csp a enabled rank thn t
    have second := translates_item csp a enabled rank els (cspItem rank enabled thn t).2
    unfold cspItem ConstraintItem.softs ConstraintItem.carries ConstraintItem.Holds
    dsimp only
    refine ⟨by rw [second.counted, first.counted, Nat.add_assoc],
      by rw [second.nodes, first.nodes, List.append_assoc], ?_⟩
    rw [nodeHolds_cspIf, first.asks, second.asks, first.counted]

/-- The item loop asks for what its items demand. -/
theorem translates_items (csp : Csp) (a : Nat → Int) (enabled : Option (List Nat))
    (rank : Nat × Nat) : ∀ (items : List ConstraintItem) (t : Translated),
    Translates csp a (ConstraintItem.softsOf items) (ConstraintItem.carriesOf items)
      (ConstraintItem.HoldAll csp a enabled items t.priority.length)
      (allHold csp a (cspItems rank enabled items t).1) t (cspItems rank enabled items t).2
  | [], t => ⟨rfl, by simp [cspItems, ConstraintItem.carriesOf], Iff.rfl⟩
  | item :: items, t => by
    have first := translates_item csp a enabled rank item t
    have rest := translates_items csp a enabled rank items (cspItem rank enabled item t).2
    unfold cspItems ConstraintItem.softsOf ConstraintItem.carriesOf ConstraintItem.HoldAll
    dsimp only
    refine ⟨by rw [rest.counted, first.counted, Nat.add_assoc],
      by rw [rest.nodes, first.nodes, List.append_assoc], ?_⟩
    rw [allHold_append, allHold_unlessTrue, first.asks, rest.asks, first.counted]

end

mutual

/-- A node reads a problem through the verdicts on its sources only. -/
theorem nodeHolds_congr {csp csp' : Csp} (same : ∀ i, csp.truth i a = csp'.truth i a) :
    ∀ n, nodeHolds csp a n ↔ nodeHolds csp' a n
  | .true | .false | .allDiff _ | .pop _ _ _ => by simp only [nodeHolds]
  | .lin .. | .inside .. | .eval _ _ | .fn .. => by simp only [nodeHolds, same]
  | .and ns => by simpa only [nodeHolds] using allHold_congr same ns
  | .or ns => by simpa only [nodeHolds] using anyHolds_congr same ns
  | .ite cond ncond thn els => by
    simp only [nodeHolds, nodeHolds_congr same cond, nodeHolds_congr same thn,
      nodeHolds_congr same els]

theorem allHold_congr {csp csp' : Csp} (same : ∀ i, csp.truth i a = csp'.truth i a) :
    ∀ ns, allHold csp a ns ↔ allHold csp' a ns
  | [] => by simp only [allHold]
  | n :: ns => by simp only [allHold, nodeHolds_congr same n, allHold_congr same ns]

theorem anyHolds_congr {csp csp' : Csp} (same : ∀ i, csp.truth i a = csp'.truth i a) :
    ∀ ns, anyHolds csp a ns ↔ anyHolds csp' a ns
  | [] => by simp only [anyHolds]
  | n :: ns => by simp only [anyHolds, nodeHolds_congr same n, anyHolds_congr same ns]

end

namespace RandClass

/-- The items of every constraint in order. -/
def items (cls : RandClass) : List ConstraintItem := cls.constraints.flatMap fun con => con.items

/-- An assignment meets everything a class asks for when the given preferences are retained: the links of
its variables, the carries, and every item. -/
structure Meets (cls : RandClass) (enabled : Option (List Nat)) (a : Nat → Int) : Prop where
  assignment : cls.base.Assignment a
  links : ∀ n ∈ cls.base.nodes, nodeHolds cls.base a n
  carries : ∀ n ∈ ConstraintItem.carriesOf cls.items, nodeHolds cls.base a n
  items : ConstraintItem.HoldAll cls.base a enabled cls.items 0

theorem carriesOf_append (items more : List ConstraintItem) :
    ConstraintItem.carriesOf (items ++ more) =
      ConstraintItem.carriesOf items ++ ConstraintItem.carriesOf more := by
  induction items with
  | nil => simp [ConstraintItem.carriesOf]
  | cons item items ih => simp [ConstraintItem.carriesOf, ih]

theorem holdAll_append (items more : List ConstraintItem) (id : Nat) :
    ConstraintItem.HoldAll csp a enabled (items ++ more) id ↔
      ConstraintItem.HoldAll csp a enabled items id ∧
        ConstraintItem.HoldAll csp a enabled more (id + ConstraintItem.softsOf items) := by
  induction items generalizing id with
  | nil => simp [ConstraintItem.HoldAll, ConstraintItem.softsOf]
  | cons item items ih =>
    simp [ConstraintItem.HoldAll, ConstraintItem.softsOf, ih, and_assoc, Nat.add_assoc]

/-- The nodes of a translation hold when those before it, the carries of its items and their demands
do. -/
structure Adds (csp : Csp) (a : Nat → Int) (enabled : Option (List Nat)) (items : List ConstraintItem)
    (t u : Translated) : Prop where
  counted : u.priority.length = t.priority.length + ConstraintItem.softsOf items
  nodes : allHold csp a u.nodes ↔ allHold csp a t.nodes ∧
    allHold csp a (ConstraintItem.carriesOf items) ∧
      ConstraintItem.HoldAll csp a enabled items t.priority.length

/-- One constraint's items are translated. -/
theorem adds_items (csp : Csp) (a : Nat → Int) (enabled : Option (List Nat)) (rank : Nat × Nat)
    (items : List ConstraintItem) (t : Translated) :
    Adds csp a enabled items t (translateItems rank enabled items t) := by
  induction items generalizing t with
  | nil =>
    exact ⟨rfl, by simp [translateItems, ConstraintItem.carriesOf, ConstraintItem.HoldAll, allHold]⟩
  | cons item items ih =>
    -- The first item's soft items are counted before the rest are translated.
    have first := translates_item csp a enabled rank item t
    unfold translateItems
    dsimp only
    generalize cspItem rank enabled item t = r at first ⊢
    obtain ⟨n, u⟩ := r
    obtain ⟨counted, nodes, asks⟩ := first
    have rest := ih { u with nodes := u.nodes ++ n.unlessTrue }
    dsimp only at counted nodes asks rest
    refine ⟨by rw [rest.counted, ConstraintItem.softsOf]; dsimp only; omega, ?_⟩
    rw [rest.nodes, ConstraintItem.carriesOf, ConstraintItem.HoldAll]
    simp only [allHold_append, allHold_unlessTrue, nodes, asks, counted]
    tauto

/-- The constraint loop is translated. -/
theorem adds_constraints (csp : Csp) (a : Nat → Int) (enabled : Option (List Nat))
    (cons : List ClassConstraint) (t : Translated) :
    Adds csp a enabled (cons.flatMap fun con => con.items) t
      (cons.foldl (fun t con => translateItems con.softRank enabled con.items t) t) := by
  induction cons generalizing t with
  | nil =>
    exact ⟨rfl, by simp [ConstraintItem.carriesOf, ConstraintItem.HoldAll, allHold]⟩
  | cons con cons ih =>
    -- The constraints are translated one after another, each from where the last one stopped.
    have first := adds_items csp a enabled con.softRank con.items t
    have rest := ih (translateItems con.softRank enabled con.items t)
    rw [List.flatMap_cons, List.foldl_cons]
    refine ⟨?_, ?_⟩
    · rw [rest.counted, first.counted, Nat.add_assoc]
      congr 1
      generalize con.items = items
      induction items with
      | nil => simp [ConstraintItem.softsOf]
      | cons item items more => simp only [List.cons_append, ConstraintItem.softsOf, Nat.add_assoc, more]
    · rw [rest.nodes, first.nodes, carriesOf_append, holdAll_append, allHold_append, first.counted]
      tauto

/-- The solutions of the translated problem are the assignments that meet the class. -/
theorem solution_iff (cls : RandClass) (enabled : Option (List Nat)) (a : Nat → Int) :
    (cls.csp enabled).Solution a ↔ cls.Meets enabled a := by
  -- The translation adds to the problem's nodes, so a solution meets both halves.
  have adds : Adds cls.base a enabled cls.items ⟨[], cls.base.nodes, []⟩ (cls.translate enabled) :=
    adds_constraints cls.base a enabled cls.constraints _
  have truth (i : Nat) : (cls.csp enabled).truth i a = cls.base.truth i a := rfl
  have nodes : (∀ n ∈ (cls.csp enabled).nodes, nodeHolds (cls.csp enabled) a n) ↔
      allHold cls.base a (cls.translate enabled).nodes := by
    rw [← allHold_iff]
    exact allHold_congr truth _
  constructor
  · rintro ⟨assignment, holds⟩
    obtain ⟨links, carries, items⟩ := adds.nodes.mp (nodes.mp holds)
    exact ⟨⟨assignment.within, assignment.consistent⟩, (allHold_iff _).mp links,
      (allHold_iff _).mp carries, items⟩
  · rintro ⟨assignment, links, carries, items⟩
    exact ⟨⟨assignment.within, assignment.consistent⟩, nodes.mpr (adds.nodes.mpr
      ⟨(allHold_iff _).mpr links, (allHold_iff _).mpr carries, items⟩)⟩

end RandClass

end Demands

end Xezim
