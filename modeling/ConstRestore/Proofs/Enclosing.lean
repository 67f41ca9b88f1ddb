/-
  The search for an object that has an instance constant.

  The classes of the enclosing instances form a chain that the registry gives
  link by link (`Registry.enclosing?`); the chain may be cyclic.

  * `Registry.Nearest` walks the chain to the first class that is wanted, with
    the loads on the way; a class has at most one such walk;
  * `receiver_eq_ok_iff`: the code for the object are the loads of that walk;
  * `receiverLoop` is the search that follows the links with a set of visited
    classes.  It ends within one more turn than there are links on the chain,
    with the same result (`receiverLoop_eq`).
-/
import ConstRestore.Code.Generate
import ConstRestore.Registry.Tables
import ConstRestore.Proofs.Hierarchy
import ConstRestore.Proofs.Result

namespace ConstRestore

/-- The load of the enclosing instance of an object of class `a`. -/
def OuterLink.load (a : String) (o : OuterLink) : Instr :=
  .field .getfield ⟨a, o.fieldName, o.descriptor⟩

namespace Registry

variable {r : Registry} {p : String → Bool} {a : String} {code code' : List Instr}

/-! ## Chains of enclosing instances -/

/-- The link of an inner class to its enclosing instance. -/
def outer? (r : Registry) (a : String) : Option OuterLink := (r.info? a).bind (·.outer)

/-- The class that is `n` links away from a class. -/
def enclosing? (r : Registry) : Nat → String → Option String
  | 0, a => some a
  | n + 1, a => (r.outer? a).bind fun o => r.enclosing? n o.outerClass

theorem outerLoad_eq (r : Registry) (a : String) :
    r.outerLoad a = (r.outer? a).toList.map (·.load a) := rfl

/-- From class `a`, the code loads the enclosing instances up to the first one whose class
    is wanted. -/
inductive Nearest (r : Registry) (p : String → Bool) : String → List Instr → Prop
  | here {a : String} : p a → Nearest r p a []
  | outer {a : String} {o : OuterLink} {code : List Instr} : ¬ p a →
      r.outer? a = some o → Nearest r p o.outerClass code → Nearest r p a (o.load a :: code)

theorem Nearest.unique (h : r.Nearest p a code) (h' : r.Nearest p a code') : code = code' := by
  induction h generalizing code' with
  | here hp =>
    cases h' with
    | here => rfl
    | outer hn => exact absurd hp hn
  | outer hn ho _ ih =>
    cases h' with
    | here hp => exact absurd hp hn
    | outer _ ho' h' =>
      obtain rfl := Option.some.inj (ho.symm.trans ho')
      rw [ih h']

/-- The walk ends at the first class of the chain that is wanted. -/
theorem Nearest.target (h : r.Nearest p a code) :
    ∃ b, r.enclosing? code.length a = some b ∧ p b := by
  induction h with
  | here hp => exact ⟨_, rfl, hp⟩
  | outer _ ho _ ih =>
    obtain ⟨b, hb, hp⟩ := ih
    exact ⟨b, by simpa [enclosing?, ho] using hb, hp⟩

/-- Every load takes the object of one class of the chain, which is not wanted, to the object of
    the next one. -/
theorem Nearest.load (h : r.Nearest p a code) {k : Nat} (hk : k < code.length) :
    ∃ b o, r.enclosing? k a = some b ∧ ¬ p b ∧ r.outer? b = some o ∧
      code[k]? = some (o.load b) ∧ r.enclosing? (k + 1) a = some o.outerClass := by
  induction h generalizing k with
  | here => exact absurd hk (Nat.not_lt_zero k)
  | @outer a o code hn ho _ ih =>
    cases k with
    | zero => exact ⟨a, o, rfl, hn, ho, rfl, by simp [enclosing?, ho]⟩
    | succ k =>
      obtain ⟨b, o', hb, hnb, ho', hload, hnext⟩ := ih (Nat.lt_of_succ_lt_succ hk)
      exact ⟨b, o', by simpa [enclosing?, ho] using hb, hnb, ho', by simpa using hload,
        by rw [enclosing?, ho]; exact hnext⟩

theorem exists_nearest_iff :
    (∃ code, r.Nearest p a code) ↔ ∃ n b, r.enclosing? n a = some b ∧ p b := by
  constructor
  · rintro ⟨code, h⟩
    exact ⟨code.length, h.target⟩
  · rintro ⟨n, b, hb, hp⟩
    induction n generalizing a with
    | zero =>
      obtain rfl := Option.some.inj hb
      exact ⟨[], .here hp⟩
    | succ n ih =>
      by_cases ha : p a
      · exact ⟨[], .here ha⟩
      · obtain ⟨o, ho, hrest⟩ := Option.bind_eq_some_iff.1 hb
        obtain ⟨code, h⟩ := ih hrest
        exact ⟨_, .outer ha ho h⟩

/-! ## The chain as a search -/

theorem leads_outer {o : OuterLink} (ho : r.outer? a = some o) :
    r.Leads ClassInfo.outerClasses a o.outerClass := by
  obtain ⟨c, hc, ho⟩ := Option.bind_eq_some_iff.1 ho
  exact ⟨c, hc, by simp [ClassInfo.outerClasses, ho]⟩

theorem mem_outerChain_of_enclosing {n : Nat} {b : String} (h : r.enclosing? n a = some b) :
    b ∈ r.outerChain a := by
  rw [outerChain, mem_preorder_iff]
  induction n generalizing a with
  | zero =>
    obtain rfl := Option.some.inj h
    exact .refl
  | succ n ih =>
    obtain ⟨o, ho, hrest⟩ := Option.bind_eq_some_iff.1 h
    exact .head (leads_outer ho) (ih hrest)

/-- One link of the search: the class itself, then the class that it leads to. -/
theorem preorderFrom_outer (r : Registry) (a : String) (visited : List String) :
    r.preorderFrom .outer [a] visited =
      if a ∈ visited then []
      else a :: r.preorderFrom .outer ((r.outer? a).map (·.outerClass)).toList (a :: visited) := by
  rw [preorderFrom_cons, preorderFrom_nil, List.append_nil, outer?]
  cases r.info? a <;> rfl

theorem nearest_of_any {visited : List String}
    (h : (r.preorderFrom .outer [a] visited).any p) :
    r.Nearest p a (((r.preorderFrom .outer [a] visited).takeWhile fun b => !p b).flatMap
      r.outerLoad) := by
  generalize hl : r.preorderFrom .outer [a] visited = l at h ⊢
  induction l generalizing a visited with
  | nil => cases h
  | cons x l ih =>
    rw [preorderFrom_outer] at hl
    by_cases hmem : a ∈ visited
    · simp [if_pos hmem] at hl
    · rw [if_neg hmem] at hl
      obtain ⟨rfl, hrest⟩ := List.cons.inj hl
      by_cases hp : p a
      · rw [List.takeWhile_cons_of_neg (by simp [hp])]
        exact .here hp
      · rw [List.any_cons, Bool.or_eq_true, or_iff_right hp] at h
        rw [List.takeWhile_cons_of_pos (by simp [hp]), List.flatMap_cons, outerLoad_eq]
        cases ho : r.outer? a with
        | none =>
          rw [ho, Option.map_none, Option.toList_none, preorderFrom_nil] at hrest
          simp [← hrest] at h
        | some o =>
          rw [ho, Option.map_some, Option.toList_some] at hrest
          exact .outer hp ho (ih hrest h)

/-- The part of the chain before the first class that is wanted gives the loads on the way. -/
theorem nearest_outerChain (h : (r.outerChain a).any p) :
    r.Nearest p a (((r.outerChain a).takeWhile fun b => !p b).flatMap r.outerLoad) :=
  nearest_of_any h

end Registry

/-! ## The code for the object -/

variable {r : Registry} {c : CodeContext} {fieldOwner : String}

/-- The code for the object that has a field: `this`, then the loads of the nearest walk. -/
theorem receiver_eq_ok_iff (h : c.isStatic = false) {code : List Instr} :
    receiver r c fieldOwner = .ok code ↔
      ∃ loads, code = .var (.load .ref) 0 :: loads ∧
        r.Nearest (r.isAssignable fieldOwner) c.owner loads := by
  simp only [receiver, h, Bool.false_eq_true, if_false]
  constructor
  · intro hreceiver
    split at hreceiver
    · rename_i hany
      exact ⟨_, (Except.ok.inj hreceiver).symm, Registry.nearest_outerChain hany⟩
    · cases hreceiver
  · rintro ⟨loads, rfl, hnearest⟩
    obtain ⟨b, hb, hp⟩ := hnearest.target
    have hany : (r.outerChain c.owner).any (r.isAssignable fieldOwner ·) :=
      List.any_eq_true.2 ⟨b, Registry.mem_outerChain_of_enclosing hb, hp⟩
    rw [if_pos hany, (Registry.nearest_outerChain hany).unique hnearest]

theorem receiver_eq_error (h : c.isStatic = false)
    (hnone : ∀ loads, ¬ r.Nearest (r.isAssignable fieldOwner) c.owner loads) :
    receiver r c fieldOwner = .error (.noReceiver fieldOwner c.owner) := by
  have hany : ¬ (r.outerChain c.owner).any (r.isAssignable fieldOwner ·) = true :=
    fun hany => hnone _ (Registry.nearest_outerChain hany)
  simp only [receiver, h, Bool.false_eq_true, if_false]
  rw [if_neg hany]

/-! ## The search link by link -/

/-- The search for the object from the class `current` on, with the code up to it and the
    classes that were left behind.  It gives up after `fuel` classes with `none`. -/
def receiverLoop (r : Registry) (c : CodeContext) (fieldOwner : String) :
    Nat → List String → List Instr → String → Option (Except CodeError (List Instr))
  | 0, _, _, _ => none
  | fuel + 1, visited, code, current =>
    if r.isAssignable fieldOwner current then some (.ok code)
    else if current ∈ visited then some (.error (.noReceiver fieldOwner c.owner))
    else
      match r.outer? current with
      | none => some (.error (.noReceiver fieldOwner c.owner))
      | some o =>
        receiverLoop r c fieldOwner fuel (current :: visited) (code ++ [o.load current])
          o.outerClass

/-- The search finds the nearest walk from the current class if there is one.  A class left
    behind is farther from a wanted one than the current class, so meeting it again
    means that there is none. -/
theorem receiverLoop_spec {fuel : Nat} {visited : List String} {code : List Instr}
    {current : String}
    (hfuel : (r.preorderFrom .outer [current] visited).countP (r.outer? · |>.isSome) < fuel)
    (hvisited : ∀ a ∈ visited, ∀ loads, r.Nearest (r.isAssignable fieldOwner) a loads →
      ∃ loads', r.Nearest (r.isAssignable fieldOwner) current loads' ∧
        loads'.length < loads.length) :
    (∃ loads, r.Nearest (r.isAssignable fieldOwner) current loads ∧
        receiverLoop r c fieldOwner fuel visited code current = some (.ok (code ++ loads))) ∨
      (∀ loads, ¬ r.Nearest (r.isAssignable fieldOwner) current loads) ∧
        receiverLoop r c fieldOwner fuel visited code current =
          some (.error (.noReceiver fieldOwner c.owner)) := by
  induction fuel generalizing visited code current with
  | zero => exact absurd hfuel (Nat.not_lt_zero _)
  | succ fuel ih =>
    rw [receiverLoop]
    by_cases hp : r.isAssignable fieldOwner current
    · exact .inl ⟨[], .here hp, by rw [if_pos hp, List.append_nil]⟩
    rw [if_neg hp]
    by_cases hmem : current ∈ visited
    · refine .inr ⟨fun loads h => ?_, by rw [if_pos hmem]⟩
      obtain ⟨loads', h', hlt⟩ := hvisited current hmem loads h
      rw [h.unique h'] at hlt
      exact Nat.lt_irrefl _ hlt
    rw [if_neg hmem]
    cases ho : r.outer? current with
    | none =>
      refine .inr ⟨fun loads h => ?_, rfl⟩
      cases h with
      | here h => exact hp h
      | outer _ ho' => cases ho.symm.trans ho'
    | some o =>
      have hcurrent : ∀ loads, r.Nearest (r.isAssignable fieldOwner) current loads →
          ∃ loads', r.Nearest (r.isAssignable fieldOwner) o.outerClass loads' ∧
            loads = o.load current :: loads' := by
        intro loads h
        cases h with
        | here h => exact absurd h hp
        | outer _ ho' h =>
          obtain rfl := Option.some.inj (ho.symm.trans ho')
          exact ⟨_, h, rfl⟩
      rw [Registry.preorderFrom_outer, if_neg hmem, List.countP_cons_of_pos (by simp [ho]), ho,
        Option.map_some, Option.toList_some] at hfuel
      have hnext := @ih (current :: visited) (code ++ [o.load current]) o.outerClass (by omega) ?_
      · rcases hnext with ⟨loads, h, hloop⟩ | ⟨hnone, hloop⟩
        · exact .inl ⟨o.load current :: loads, .outer hp ho h, by simpa using hloop⟩
        · refine .inr ⟨fun loads h => ?_, hloop⟩
          obtain ⟨loads', h', -⟩ := hcurrent loads h
          exact hnone loads' h'
      · intro a ha loads h
        rcases List.mem_cons.1 ha with rfl | ha
        · obtain ⟨loads', h', rfl⟩ := hcurrent loads h
          exact ⟨loads', h', by simp⟩
        · obtain ⟨loads', h', hlt⟩ := hvisited a ha loads h
          obtain ⟨loads'', h'', rfl⟩ := hcurrent loads' h'
          exact ⟨loads'', h'', by rw [List.length_cons] at hlt; omega⟩

/-- The search ends, with the result of `receiver`. -/
theorem receiverLoop_eq (h : c.isStatic = false) {fuel : Nat}
    (hfuel : (r.outerChain c.owner).countP (r.outer? · |>.isSome) < fuel) :
    receiverLoop r c fieldOwner fuel [] [.var (.load .ref) 0] c.owner =
      some (receiver r c fieldOwner) := by
  rcases @receiverLoop_spec r c fieldOwner fuel [] [.var (.load .ref) 0] c.owner hfuel
    (by simp) with ⟨loads, hloads, hloop⟩ | ⟨hnone, hloop⟩
  · rw [hloop, (receiver_eq_ok_iff h).2 ⟨loads, rfl, hloads⟩]
    rfl
  · rw [hloop, receiver_eq_error h hnone]

/-- The search for an object with the fields of `fieldOwner` ends, whatever links the registry
    has, in one more turn than the chain has links.  It succeeds if and only if a class on the chain of enclosing instances is
    assignable to `fieldOwner`; the code then goes from `this` along the links to the first such
    class, each load taking the object that the code before it leaves to the object
    of the class in its descriptor. -/
theorem receiver_finds_nearest (r : Registry) (c : CodeContext) (fieldOwner : String)
    (h : c.isStatic = false) :
    (∀ fuel, (r.outerChain c.owner).countP (r.outer? · |>.isSome) < fuel →
      receiverLoop r c fieldOwner fuel [] [.var (.load .ref) 0] c.owner =
        some (receiver r c fieldOwner)) ∧
    ((∃ code, receiver r c fieldOwner = .ok code) ↔
      ∃ n a, r.enclosing? n c.owner = some a ∧ r.isAssignable fieldOwner a) ∧
    ((¬ ∃ n a, r.enclosing? n c.owner = some a ∧ r.isAssignable fieldOwner a) →
      receiver r c fieldOwner = .error (.noReceiver fieldOwner c.owner)) ∧
    ∀ code, receiver r c fieldOwner = .ok code →
      ∃ loads, code = .var (.load .ref) 0 :: loads ∧
        (∃ a, r.enclosing? loads.length c.owner = some a ∧ r.isAssignable fieldOwner a) ∧
        ∀ k < loads.length, ∃ a o, r.enclosing? k c.owner = some a ∧
          ¬ r.isAssignable fieldOwner a ∧ r.outer? a = some o ∧
          loads[k]? = some (.field .getfield ⟨a, o.fieldName, "L" ++ o.outerClass ++ ";"⟩) ∧
          r.enclosing? (k + 1) c.owner = some o.outerClass := by
  refine ⟨fun fuel hfuel => receiverLoop_eq h hfuel, ?_, fun hnone => ?_, fun code hcode => ?_⟩
  · rw [← Registry.exists_nearest_iff]
    constructor
    · rintro ⟨code, hcode⟩
      obtain ⟨loads, -, hloads⟩ := (receiver_eq_ok_iff h).1 hcode
      exact ⟨loads, hloads⟩
    · rintro ⟨loads, hloads⟩
      exact ⟨_, (receiver_eq_ok_iff h).2 ⟨loads, rfl, hloads⟩⟩
  · rw [← Registry.exists_nearest_iff, not_exists] at hnone
    exact receiver_eq_error h hnone
  · obtain ⟨loads, rfl, hloads⟩ := (receiver_eq_ok_iff h).1 hcode
    exact ⟨loads, rfl, hloads.target, fun k hk => hloads.load hk⟩

/-- A chain that comes back to where it started: the search finds the class that it wants on
    the way, and ends if it wants none of them. -/
theorem receiver_finds_nearest_cyclic :
    let r : Registry := (ClassRegistry.empty.addInfo
      ⟨"A", none, [], false, some ⟨"f", "B"⟩⟩).addInfo ⟨"B", none, [], false, some ⟨"g", "A"⟩⟩
    let c : CodeContext := ⟨"A", false, 52, false, .auto⟩
    c.isStatic = false ∧ (∃ code, receiver r c "B" = .ok code) ∧
      receiverLoop r c "X" 3 [] [.var (.load .ref) 0] "A" = some (receiver r c "X") := by
  intro r c
  have hlinks : (r.outerChain c.owner).countP (r.outer? · |>.isSome) < 3 := by cbv
  refine ⟨rfl, ?_, (receiver_finds_nearest r c "X" rfl).1 3 hlinks⟩
  exact (receiver_finds_nearest r c "B" rfl).2.1.2 ⟨1, "B", by decide, Registry.isAssignable_self ..⟩

end ConstRestore
