import Xezim.Soa.StoreLaws

/-! What one write does to a store. -/

namespace Xezim.Soa

open Splice

/-- A store of `n` signals keeps the planes `shown`, each in a slot of its own. -/
structure Stores (s : SoaSignalStore) (n : Nat) (decl : Nat → SignalDecl) (shown : Nat → Planes) : Prop where
  total : s.totalLen = n
  slot : ∀ id < n, Slot s id (decl id) (shown id)
  fits : ∀ id < n, (decl id).Fits (shown id)
  apart : ∀ i < n, ∀ j < n, s.route i = s.route j → s.route i ≠ inlineSentinel → i = j

/-- Only the signals of the store matter. -/
theorem Stores.congr {s : SoaSignalStore} {n : Nat} {decl decl' : Nat → SignalDecl} {shown shown' : Nat → Planes}
    (stores : Stores s n decl shown) (decls : ∀ id < n, decl id = decl' id) (same : ∀ id < n, shown id = shown' id) :
    Stores s n decl' shown' where
  total := stores.total
  slot id inside := by
    rw [← decls id inside, ← same id inside]
    exact stores.slot id inside
  fits id inside := by
    rw [← decls id inside, ← same id inside]
    exact stores.fits id inside
  apart := stores.apart

/-- The store with the words of a narrow signal replaced. -/
def setWords (s : SoaSignalStore) (id : Nat) (p : Planes) (g : BitVec 64) : SoaSignalStore :=
  { s with
    inline := { s.inline with
      valBits := s.inline.valBits.set id (wordsOf p).1
      xzBits := s.inline.xzBits.set id (wordsOf p).2 }
    generation := g }

/-- The store with the bytes of a wide signal replaced. -/
def setBytes (s : SoaSignalStore) (k : Nat) (bytes : List Byte) (g : BitVec 64) : SoaSignalStore :=
  { s with wide := { s.wide with data := s.wide.data.set k bytes }, generation := g }

section Slots

variable {s : SoaSignalStore} {id j : Nat} {d : SignalDecl} {p : Planes}

/-- A position that holds something is in range. -/
theorem lt_of_getElem?_some {α : Type*} {l : List α} {i : Nat} {a : α} (found : l[i]? = some a) : i < l.length := by
  by_contra far
  rw [List.getElem?_eq_none (by omega)] at found
  exact absurd found (by simp)

/-- A narrow slot takes the words stored into it. -/
theorem Slot.setWords (slot : Slot s id d p) (narrow : d.width ≤ 64) (q : Planes) (g : BitVec 64) :
    Slot (setWords s id q g) id d q := by
  cases slot with
  | inline _ routed f width flags declares val xz =>
    refine .inline narrow routed f width flags declares ?_ ?_
    · exact List.getElem?_set_self (lt_of_getElem?_some val)
    · exact List.getElem?_set_self (lt_of_getElem?_some xz)
  | wide broad => omega

/-- The words of one signal leave the slots of the others. -/
theorem Slot.setWords_other (slot : Slot s j d p) (other : id ≠ j) (q : Planes) (g : BitVec 64) :
    Slot (Soa.setWords s id q g) j d p := by
  cases slot with
  | inline narrow routed f width flags declares val xz =>
    refine .inline narrow routed f width flags declares ?_ ?_
    · exact (List.getElem?_set_ne other).trans val
    · exact (List.getElem?_set_ne other).trans xz
  | wide broad routed f inside width flags declares data =>
    exact .wide broad routed f inside width flags declares data

/-- A wide slot takes the bytes stored into it. -/
theorem Slot.setBytes (slot : Slot s id d p) (broad : 64 < d.width) (q : Planes) (g : BitVec 64) :
    Slot (setBytes s (s.route id) (logicBitsToPacked (d.bits q)) g) id d q := by
  cases slot with
  | inline narrow => omega
  | wide _ routed f inside width flags declares data =>
    exact .wide broad routed f inside width flags declares (List.getElem?_set_self (lt_of_getElem?_some data))

/-- The bytes of one signal leave the slots of the others. -/
theorem Slot.setBytes_other {k : Nat} (slot : Slot s j d p) (other : s.route j ≠ inlineSentinel → k ≠ s.route j)
    (bytes : List Byte) (g : BitVec 64) : Slot (Soa.setBytes s k bytes g) j d p := by
  cases slot with
  | inline narrow routed f width flags declares val xz =>
    exact .inline narrow routed f width flags declares val xz
  | wide broad routed f inside width flags declares data =>
    exact .wide broad routed f inside width flags declares ((List.getElem?_set_ne (other routed)).trans data)

end Slots

/-- A write of a signal that keeps `q`: the store after it and the change it reports. -/
structure Written (s : SoaSignalStore) (n : Nat) (decl : Nat → SignalDecl) (shown : Nat → Planes) (id : Nat)
    (q : Planes) (r : SoaSignalStore × Bool) : Prop where
  stores : Stores r.1 n decl (Function.update shown id q)
  changed : r.2 = decide (q ≠ shown id)
  generation : r.1.generation = if r.2 then s.generation + 1 else s.generation

section Steps

variable {s : SoaSignalStore} {n : Nat} {decl : Nat → SignalDecl} {shown : Nat → Planes} {id : Nat}

/-- A store whose slot of one signal is replaced. -/
theorem Stores.replaced {s' : SoaSignalStore} (stores : Stores s n decl shown) (q : Planes)
    (total : s'.totalLen = s.totalLen) (routes : s'.wideMap = s.wideMap) (here : Slot s' id (decl id) q)
    (others : ∀ j < n, id ≠ j → Slot s' j (decl j) (shown j)) (fits : (decl id).Fits q) :
    Stores s' n decl (Function.update shown id q) where
  total := total.trans stores.total
  -- Only the written slot changes.
  slot j inside := by
    by_cases same : id = j
    · subst same
      rw [Function.update_self]
      exact here
    · rw [Function.update_of_ne (Ne.symm same)]
      exact others j inside same
  fits j inside := by
    by_cases same : id = j
    · subst same
      rw [Function.update_self]
      exact fits
    · rw [Function.update_of_ne (Ne.symm same)]
      exact stores.fits j inside
  apart i inI j inJ := by
    unfold SoaSignalStore.route
    rw [routes]
    exact stores.apart i inI j inJ

/-- A bit write to a narrow signal. -/
theorem Stores.writeBits (stores : Stores s n decl shown) (inside : id < n) (narrow : (decl id).width ≤ 64)
    (val xz : Word) :
    Written s n decl shown id ((decl id).held (val.toNat, xz.toNat)) (s.writeBits id val xz) := by
  have slot := stores.slot id inside
  have fits := stores.fits id inside
  have kept := (decl id).held_fits (val.toNat, xz.toNat)
  have words := maskedWords (decl id) val xz
  generalize (decl id).held (val.toNat, xz.toNat) = q at kept words ⊢
  have before := slot
  cases slot with
  | wide broad => omega
  | inline _ routed f width flags declares valHere xzHere =>
    -- The array compares the words of what it keeps with those it stores.
    have array : s.inline.writeBits id val xz =
        if q = shown id then (s.inline, false)
        else ({ s.inline with
          valBits := s.inline.valBits.set id (wordsOf q).1
          xzBits := s.inline.xzBits.set id (wordsOf q).2 }, true) := by
      unfold InlineSignalArray.writeBits
      simp only [InlineSignalArray.maskOf, InlineSignalArray.getWidth, InlineSignalArray.isTwoState,
        InlineSignalArray.getBits, width, flags, valHere, xzHere, Option.getD_some, declares.twoState]
      rw [words]
      have same : (((wordsOf (shown id)).1, (wordsOf (shown id)).2) = ((wordsOf q).1, (wordsOf q).2)) ↔
          q = shown id := by
        constructor
        · intro equal
          exact (wordsOf_inj narrow fits kept equal).symm
        · rintro rfl
          rfl
      simp only [same]
    by_cases same : q = shown id
    · rw [if_pos same] at array
      have unchanged : s.writeBits id val xz = (s, false) := by
        unfold SoaSignalStore.writeBits
        rw [array]
        rfl
      rw [unchanged, same]
      refine ⟨?_, by simp, rfl⟩
      rw [Function.update_eq_self]
      exact stores
    · rw [if_neg same] at array
      have stored : s.writeBits id val xz = (setWords s id q (s.generation + 1), true) := by
        unfold SoaSignalStore.writeBits
        rw [array]
        rfl
      rw [stored]
      refine ⟨?_, by simp [same], rfl⟩
      exact stores.replaced q rfl rfl (before.setWords narrow q _)
        (fun j inJ other => (stores.slot j inJ).setWords_other other q _) kept

/-- A narrow signal keeps the low words of a value. -/
theorem SignalDecl.held_planes (d : SignalDecl) (narrow : d.width ≤ 64) (v : Value) :
    d.held (v.planes.1.toNat, v.planes.2.toNat) = d.held (v.val, v.xz) := by
  -- Bits past the width are dropped on both sides, so only the low ones are compared.
  have low := d.testBit_held (v.planes.1.toNat, v.planes.2.toNat)
  have whole := d.testBit_held (v.val, v.xz)
  have plane : ∀ a i, i < d.width → (BitVec.ofNat 64 a).toNat.testBit i = a.testBit i := by
    intro a i inside
    rw [testBit_toNat, BitVec.getLsbD_ofNat, decide_eq_true (by omega), Bool.true_and]
  refine Prod.ext (plane_ext fun i => ?_) (plane_ext fun i => ?_)
  · rw [(low i).1, (whole i).1]
    by_cases inside : i < d.width
    · simp only [Value.planes, plane _ i inside]
    · simp [inside]
  · rw [(low i).2, (whole i).2]
    by_cases inside : i < d.width
    · simp only [Value.planes, plane _ i inside]
    · simp [inside]

/-- A write of a value. -/
theorem Stores.writeValue [VmOps] [LawfulVmOps] (stores : Stores s n decl shown) (inside : id < n) {v : Value}
    (width : v.width = (decl id).width) :
    Written s n decl shown id ((decl id).held (v.val, v.xz)) (s.writeValue id v) := by
  have slot := stores.slot id inside
  have before := slot
  cases slot with
  | inline narrow routed =>
    have same : s.writeValue id v = s.writeBits id v.planes.1 v.planes.2 := by
      unfold SoaSignalStore.writeValue
      rw [if_neg (by rw [routed]; exact not_not_intro rfl), InlineSignalArray.writeTransientValue,
        LawfulValueOps.rawBits_eq]
      rfl
    rw [same, ← (decl id).held_planes narrow v]
    exact stores.writeBits inside narrow _ _
  | wide broad routed f room widthHere flags declares data =>
    have fits := stores.fits id inside
    have kept := (decl id).held_fits (v.val, v.xz)
    have bytes := foldedBytes (decl id) width
    generalize (decl id).held (v.val, v.xz) = q at kept bytes ⊢
    -- The array compares the bytes of what it keeps with those it stores.
    have array : s.wide.writeWideValue (s.route id) v =
        if q = shown id then (s.wide, false)
        else ({ s.wide with data := s.wide.data.set (s.route id) (logicBitsToPacked ((decl id).bits q)) }, true) := by
      unfold PackedWideSignalArray.writeWideValue
      dsimp only
      rw [widthHere, flags, data, Option.getD_some, Option.getD_some, Option.getD_some]
      have state : (f &&& flagTwoState ≠ 0) ↔ (decl id).twoState = true := by
        rw [← declares.twoState, decide_eq_true_eq]
      simp only [state]
      rw [bytes]
      have same : (logicBitsToPacked ((decl id).bits (shown id)) = logicBitsToPacked ((decl id).bits q)) ↔
          q = shown id := by
        constructor
        · intro equal
          exact (pack_inj fits kept equal).symm
        · rintro rfl
          rfl
      simp only [same]
    by_cases same : q = shown id
    · rw [if_pos same] at array
      have unchanged : s.writeValue id v = (s, false) := by
        unfold SoaSignalStore.writeValue
        rw [if_pos routed, array]
        rfl
      rw [unchanged, same]
      refine ⟨?_, by simp, rfl⟩
      rw [Function.update_eq_self]
      exact stores
    · rw [if_neg same] at array
      have stored : s.writeValue id v =
          (setBytes s (s.route id) (logicBitsToPacked ((decl id).bits q)) (s.generation + 1), true) := by
        unfold SoaSignalStore.writeValue
        rw [if_pos routed, array]
        rfl
      rw [stored]
      refine ⟨?_, by simp [same], rfl⟩
      refine stores.replaced q rfl rfl (before.setBytes broad q _) (fun j inJ other => ?_) kept
      -- Two wide signals have slots of their own.
      refine (stores.slot j inJ).setBytes_other (fun wideJ equal => ?_) _ _
      exact other (stores.apart id inside j inJ equal routed)

/-- Declaring a signal two-state changes its flags in both arrays. -/
theorem Slot.declared {d : SignalDecl} {p : Planes} (slot : Slot s id d p) :
    Slot (s.declareTwoState id) id { d with twoState := true } p := by
  -- Its flags are the only field of the slot that changes.
  cases slot with
  | inline narrow routed f width flags declares val xz =>
    refine .inline narrow routed (f ||| flagTwoState) width ?_ declares.twoStateAdded val xz
    exact (List.getElem?_modify_eq ..).trans (by rw [flags]; rfl)
  | wide broad routed f inside width flags declares data =>
    have wide : (s.declareTwoState id).wide =
        { s.wide with flags := s.wide.flags.modify (s.route id) (· ||| flagTwoState) } := if_pos routed
    refine .wide broad routed (f ||| flagTwoState) ?_ ?_ ?_ declares.twoStateAdded ?_
    · rw [wide]
      exact inside
    · rw [wide]
      exact width
    · rw [wide]
      exact (List.getElem?_modify_eq ..).trans (by rw [flags]; rfl)
    · rw [wide]
      exact data

/-- It leaves the other signals alone. -/
theorem Slot.declared_other {j : Nat} {d : SignalDecl} {p : Planes} (slot : Slot s j d p) (other : id ≠ j)
    (apart : s.route id ≠ inlineSentinel → s.route id ≠ s.route j) : Slot (s.declareTwoState id) j d p := by
  cases slot with
  | inline narrow routed f width flags declares val xz =>
    refine .inline narrow routed f width ?_ declares val xz
    exact (List.getElem?_modify_ne _ _ other).trans flags
  | wide broad routed f inside width flags declares data =>
    -- A wide slot is reached by its route, and another signal's route is another one.
    by_cases wideId : s.route id ≠ inlineSentinel
    · have wide : (s.declareTwoState id).wide =
          { s.wide with flags := s.wide.flags.modify (s.route id) (· ||| flagTwoState) } := if_pos wideId
      refine .wide broad routed f ?_ ?_ ?_ declares ?_
      · rw [wide]
        exact inside
      · rw [wide]
        exact width
      · rw [wide]
        exact (List.getElem?_modify_ne _ _ (apart wideId)).trans flags
      · rw [wide]
        exact data
    · have wide : (s.declareTwoState id).wide = s.wide := if_neg wideId
      refine .wide broad routed f ?_ ?_ ?_ declares ?_
      · rw [wide]
        exact inside
      · rw [wide]
        exact width
      · rw [wide]
        exact flags
      · rw [wide]
        exact data

/-- A signal newly declared two-state keeps its planes until it is written. -/
theorem Stores.declareTwoState (stores : Stores s n decl shown) (inside : id < n) :
    Stores (s.declareTwoState id) n (Function.update decl id { decl id with twoState := true }) shown := by
  -- The declared slot keeps its planes; the others keep everything.
  refine ⟨stores.total, ?_, ?_, stores.apart⟩
  · intro j inJ
    by_cases same : id = j
    · subst same
      rw [Function.update_self]
      exact (stores.slot id inJ).declared
    · rw [Function.update_of_ne (Ne.symm same)]
      refine (stores.slot j inJ).declared_other same fun wideId equal => ?_
      exact same (stores.apart id inside j inJ equal wideId)
  · intro j inJ
    have fits := stores.fits j inJ
    by_cases same : id = j
    · subst same
      rw [Function.update_self]
      exact fits
    · rw [Function.update_of_ne (Ne.symm same)]
      exact fits

end Steps

end Xezim.Soa
