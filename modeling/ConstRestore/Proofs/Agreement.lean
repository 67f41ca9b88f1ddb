/-
  The group of a value is the one that its destinations agree on.

  `Solution.Destined` lists the destinations of a class of values.  A call that
  gives a value of the class leads to one, its result, whether or not it also
  takes a value of the class; the choice of a group counts it only if it does
  not.  By the groups that are named with these results, `groupChoice_resolves`
  says what the choice is, and when it is the one that all results ask for.  A
  loop that goes on with what a call makes of its value is a place where it is
  not.
-/
import ConstRestore.Proofs.Plan
import ConstRestore.Proofs.Producer

namespace ConstRestore

/-! ## Candidates -/

namespace GroupChoice

variable {l : List String} {g : String}

theorem ofCandidates_eq_named_iff :
    ofCandidates l = named g ↔ (∃ g', g' ∈ l) ∧ ∀ g' ∈ l, g' = g := by
  cases l with
  | nil => simp [ofCandidates]
  | cons first rest =>
    cases h : rest.find? (· ≠ first) with
    | none =>
      have hall : ∀ g' ∈ rest, g' = first := by simpa using List.find?_eq_none.1 h
      simp only [ofCandidates, h, Option.elim_none, named.injEq]
      constructor
      · rintro rfl
        exact ⟨⟨first, List.mem_cons_self⟩, List.forall_mem_cons.2 ⟨rfl, hall⟩⟩
      · exact fun hg => hg.2 first List.mem_cons_self
    | some other =>
      have hother : other ≠ first := by simpa using List.find?_some h
      have hmem := List.mem_of_find?_eq_some h
      simp only [ofCandidates, h, Option.elim_some, reduceCtorEq, false_iff, not_and]
      intro _ hall
      have hfirst := hall first List.mem_cons_self
      exact hother ((hall other (List.mem_cons_of_mem _ hmem)).trans hfirst.symm)

theorem ofCandidates_eq_unclaimed_iff : ofCandidates l = unclaimed ↔ ∀ g, g ∉ l := by
  cases l with
  | nil => simp [ofCandidates]
  | cons first rest =>
    have hmem : ¬∀ g, g ∉ first :: rest := fun h => h first List.mem_cons_self
    have hne : ofCandidates (first :: rest) ≠ unclaimed := by
      cases h : rest.find? (· ≠ first) <;> simp only [ofCandidates, h, Option.elim] <;> nofun
    exact ⟨fun h => absurd h hne, fun h => absurd h hmem⟩

theorem eq_conflict {c : GroupChoice} (h : c.isConflict) :
    ∃ first other, c = conflict first other := by
  cases c with
  | conflict first other => exact ⟨first, other, rfl⟩
  | _ => cases h

theorem isConflict_ofCandidates_iff :
    (ofCandidates l).isConflict ↔ ∃ g ∈ l, ∃ g' ∈ l, g ≠ g' := by
  cases h : ofCandidates l with
  | unclaimed => simp [isConflict, ofCandidates_eq_unclaimed_iff.1 h]
  | named g =>
    have hall := (ofCandidates_eq_named_iff.1 h).2
    simp only [isConflict, Bool.false_eq_true, false_iff]
    rintro ⟨g₁, h₁, g₂, h₂, hne⟩
    exact hne ((hall g₁ h₁).trans (hall g₂ h₂).symm)
  | conflict first other =>
    simp only [isConflict, true_iff]
    by_contra hagree
    have hagree : ∀ g ∈ l, ∀ g' ∈ l, g = g' := by
      intro g hg g' hg'
      by_contra hne
      exact hagree ⟨g, hg, g', hg', hne⟩
    cases l with
    | nil => cases h
    | cons g rest =>
      have hnamed : ofCandidates (g :: rest) = named g :=
        ofCandidates_eq_named_iff.2 ⟨⟨g, List.mem_cons_self⟩,
          fun g' hg' => hagree g' hg' g List.mem_cons_self⟩
      cases h.symm.trans hnamed

end GroupChoice

/-! ## Destinations -/

/-- The destinations of the values in the class of a source: the parameters that
    they come from, the arguments that they are passed as, the fields that they
    are stored in or loaded from, the calls that give them and the method that
    returns them.  Of calls that give them, those that `counts` are listed. -/
inductive Solution.Destined (a : Solution) (m : Method) (owner : String) (counts : Nat → Prop)
    (x : Source) : Destination → Prop
  | param {index : Nat} (h : a.facts.Knows x (.paramSource index)) :
    Destined a m owner counts x (.param (m.member owner) index)
  | argument {call position : Nat} {op : Opcode} {site : MethodSite}
      (h : a.facts.Knows x (.paramUsage ⟨call, position⟩))
      (hi : m.code[call]? = some (.method op site)) :
    Destined a m owner counts x (.param site.member position)
  /-- A value that a lambda captures becomes a parameter of its body. -/
  | captured {call position : Nat} {site : DynamicSite} {body : Handle}
      (h : a.facts.Knows x (.paramUsage ⟨call, position⟩))
      (hi : m.code[call]? = some (.dynamic site)) (hbody : site.lambdaBody? = some body)
      (hreceiver : ¬body.kind.hasReceiver) :
    Destined a m owner counts x (.param body.member position)
  /-- The first value captured may be the receiver of the body. -/
  | capturedAfter {call index : Nat} {site : DynamicSite} {body : Handle}
      (h : a.facts.Knows x (.paramUsage ⟨call, index + 1⟩))
      (hi : m.code[call]? = some (.dynamic site)) (hbody : site.lambdaBody? = some body)
      (hreceiver : body.kind.hasReceiver) :
    Destined a m owner counts x (.param body.member index)
  | field {j : Nat} {op : Opcode} {site : FieldSite} (h : a.facts.Knows x (.usage j))
      (hi : m.code[j]? = some (.field op site)) :
    Destined a m owner counts x (.field site.member)
  | result {j : Nat} {op : Opcode} {site : MethodSite} (h : a.facts.Same x (.instruction j))
      (hi : m.code[j]? = some (.method op site)) (hcounts : counts j) :
    Destined a m owner counts x (.result site.member)
  | returned {j : Nat} {k : VarKind} (h : a.facts.Knows x (.usage j))
      (hi : m.code[j]? = some (.simple (.return_ (some k)))) :
    Destined a m owner counts x (.result (m.member owner))

theorem Solution.Destined.mono {a : Solution} {m : Method} {owner : String}
    {counts counts' : Nat → Prop} {x : Source} {d : Destination}
    (h : a.Destined m owner counts x d) (hcounts : ∀ j, counts j → counts' j) :
    a.Destined m owner counts' x d := by
  cases h with
  | param h => exact .param h
  | argument h hi => exact .argument h hi
  | captured h hi hbody hreceiver => exact .captured h hi hbody hreceiver
  | capturedAfter h hi hbody hreceiver => exact .capturedAfter h hi hbody hreceiver
  | field h hi => exact .field h hi
  | result h hi hj => exact .result h hi (hcounts _ hj)
  | returned h hi => exact .returned h hi

/-- A call takes no value of the class of a source. -/
def Solution.TakesNone (a : Solution) (x : Source) (j : Nat) : Prop :=
  ∀ position, ¬a.facts.Knows x (.paramUsage ⟨j, position⟩)

theorem FactTable.facts?_of_same {t : FactTable} {x y : Source} (h : t.Same x y) :
    t.facts? x = t.facts? y := by
  obtain ⟨root, hx, hy⟩ := h
  rw [facts?, facts?, hx, hy]

theorem FactTable.knows_iff_holds {t : FactTable} {x : Source} {fs : Facts}
    (h : t.facts? x = some fs) {fact : Fact} : t.Knows x fact ↔ fs.Holds fact := by
  simp [Knows, h]

section Destinations

variable {r : Registry} {limit : Nat} {owner : String} {m : Method} {a : Solution} {x : Source}
  {fs : Facts} {d : Destination}

theorem argumentDestination?_eq_some {i : Instr} {position : Nat} :
    i.argumentDestination? position = some d ↔
      (∃ op site, i = .method op site ∧ d = .param site.member position) ∨
      ∃ site body, i = .dynamic site ∧ site.lambdaBody? = some body ∧
        (¬body.kind.hasReceiver ∧ d = .param body.member position ∨
          body.kind.hasReceiver ∧ ∃ index, position = index + 1 ∧ d = .param body.member index) := by
  cases i with
  | method op site =>
    constructor
    · exact fun hd => .inl ⟨op, site, rfl, (Option.some.inj hd).symm⟩
    · rintro (⟨op, site, h, rfl⟩ | ⟨site, body, h, -⟩) <;> cases h
      rfl
  | dynamic site =>
    simp only [Instr.argumentDestination?, Option.bind_eq_some_iff, reduceCtorEq, false_and,
      exists_false, Instr.dynamic.injEq, false_or]
    constructor
    · rintro ⟨body, hbody, hd⟩
      refine ⟨site, body, rfl, hbody, ?_⟩
      unfold Handle.param? at hd
      split_ifs at hd with hreceiver
      · cases position with
        | zero => cases hd
        | succ index => exact .inr ⟨hreceiver, index, rfl, (Option.some.inj hd).symm⟩
      · exact .inl ⟨hreceiver, (Option.some.inj hd).symm⟩
    · rintro ⟨site, body, rfl, hbody, ⟨hreceiver, rfl⟩ | ⟨hreceiver, index, rfl, rfl⟩⟩
      · exact ⟨body, hbody, by simp [Handle.param?, hreceiver]⟩
      · exact ⟨body, hbody, by simp [Handle.param?, hreceiver]⟩
  | _ => simp [Instr.argumentDestination?]

theorem usageDestination?_eq_some {i : Instr} {own : Member} {isArgument : Bool} :
    i.usageDestination? own isArgument = some d ↔
      (∃ op site, i = .field op site ∧ d = .field site.member) ∨
      (∃ op site, i = .method op site ∧ isArgument = false ∧ d = .result site.member) ∨
      ∃ k, i = .simple (.return_ (some k)) ∧ d = .result own := by
  cases i with
  | field op site => simp [Instr.usageDestination?, eq_comm]
  | method op site => cases isArgument <;> simp [Instr.usageDestination?, eq_comm]
  | simple op =>
    unfold Instr.usageDestination?
    split <;> simp_all [eq_comm]
  | _ => simp [Instr.usageDestination?]

theorem Solution.Destined.of_argument {counts : Nat → Prop} {call position : Nat} {i : Instr}
    (h : a.facts.Knows x (.paramUsage ⟨call, position⟩)) (hi : m.code[call]? = some i)
    (hd : i.argumentDestination? position = some d) : a.Destined m owner counts x d := by
  obtain ⟨op, site, rfl, rfl⟩ | ⟨site, body, rfl, hbody, ⟨hreceiver, rfl⟩ |
    ⟨hreceiver, index, rfl, rfl⟩⟩ := argumentDestination?_eq_some.1 hd
  · exact .argument h hi
  · exact .captured h hi hbody hreceiver
  · exact .capturedAfter h hi hbody hreceiver

/-- A call that is used and takes no value of the class gives one. -/
theorem Solution.Destined.of_usage (h : solve r limit owner m = .ok a) {j : Nat} {i : Instr}
    {isArgument : Bool} (hj : a.facts.Knows x (.usage j)) (hi : m.code[j]? = some i)
    (hnone : isArgument = false → a.TakesNone x j)
    (hd : i.usageDestination? (m.member owner) isArgument = some d) :
    a.Destined m owner (a.TakesNone x) x d := by
  obtain ⟨op, site, rfl, rfl⟩ | ⟨op, site, rfl, harg, rfl⟩ | ⟨k, rfl, rfl⟩ :=
    usageDestination?_eq_some.1 hd
  · exact .field hj hi
  · rcases (solve_calls h hi x).1 hj with hsame | ⟨position, hposition⟩
    · exact .result hsame hi (hnone harg)
    · exact absurd hposition (hnone harg position)
  · exact .returned hj hi

/-- The destinations that are looked up are those of the class, of calls the
    results that count when a call that takes a value of the class does not. -/
theorem mem_destinations_iff (h : solve r limit owner m = .ok a)
    (hfs : a.facts.facts? x = some fs) :
    d ∈ m.destinations owner fs ↔ a.Destined m owner (a.TakesNone x) x d := by
  have hknows {fact : Fact} : a.facts.Knows x fact ↔ fs.Holds fact :=
    FactTable.knows_iff_holds hfs
  have hargument (j : Nat) :
      (fs.paramUsages.toList.any (·.call == j)) = false ↔ a.TakesNone x j := by
    simp only [List.any_eq_false, beq_iff_eq, Solution.TakesNone, hknows]
    exact ⟨fun hall position hmem => hall _ hmem rfl,
      fun hall c hc hcall => hall c.position (by subst hcall; exact hc)⟩
  simp only [Method.destinations, List.mem_append, List.mem_map, List.mem_filterMap,
    Option.bind_eq_bind, Option.bind_eq_some_iff]
  constructor
  · rintro ((⟨index, hindex, rfl⟩ | ⟨c, hc, i, hi, hd⟩) | ⟨j, hj, i, hi, hd⟩)
    · exact .param (hknows.2 hindex)
    · exact .of_argument (hknows.2 hc) hi hd
    · exact .of_usage h (hknows.2 hj) hi (hargument j).1 hd
  · intro hd
    cases hd with
    | param hindex => exact .inl (.inl ⟨_, hknows.1 hindex, rfl⟩)
    | argument hc hi =>
      exact .inl (.inr ⟨_, hknows.1 hc, _, hi, argumentDestination?_eq_some.2
        (.inl ⟨_, _, rfl, rfl⟩)⟩)
    | captured hc hi hbody hreceiver =>
      exact .inl (.inr ⟨_, hknows.1 hc, _, hi, argumentDestination?_eq_some.2
        (.inr ⟨_, _, rfl, hbody, .inl ⟨hreceiver, rfl⟩⟩)⟩)
    | capturedAfter hc hi hbody hreceiver =>
      exact .inl (.inr ⟨_, hknows.1 hc, _, hi, argumentDestination?_eq_some.2
        (.inr ⟨_, _, rfl, hbody, .inr ⟨hreceiver, _, rfl, rfl⟩⟩)⟩)
    | field hj hi =>
      exact .inr ⟨_, hknows.1 hj, _, hi, usageDestination?_eq_some.2 (.inl ⟨_, _, rfl, rfl⟩)⟩
    | result hsame hi hnone =>
      exact .inr ⟨_, hknows.1 ((solve_calls h hi x).2 hsame), _, hi,
        usageDestination?_eq_some.2 (.inr (.inl ⟨_, _, rfl, (hargument _).2 hnone, rfl⟩))⟩
    | returned hj hi =>
      exact .inr ⟨_, hknows.1 hj, _, hi,
        usageDestination?_eq_some.2 (.inr (.inr ⟨_, rfl, rfl⟩))⟩

end Destinations

/-! ## The choice -/

namespace Subject

/-- A destination of the class of a source is bound to a group. -/
def Names (s : Subject) (a : Solution) (x : Source) (counts : Nat → Prop) (g : String) : Prop :=
  ∃ d, a.Destined s.method s.owner counts x d ∧ d.group? s.registry s.store.bindings = some g

/-- Two different groups are named. -/
def Disagree (names : String → Prop) : Prop := ∃ g g', names g ∧ names g' ∧ g ≠ g'

/-- The facts of a class of values decide about its group by the groups that are
    named: the only one that is, none when two are, and without any the default
    one.  Literals of a class for which two are named stay. -/
structure Resolves (s : Subject) (a : Solution) (x : Source) (fs : Facts)
    (names : String → Prop) : Prop where
  named (type : DataType) (useDefault : Bool) (g : String) :
    (s.groupChoice fs).key? s.store type useDefault = some (.named g) ↔
      names g ∧ ∀ g', names g' → g' = g
  isConflict : (s.groupChoice fs).isConflict ↔ Disagree names
  conflict (h : Disagree names) (type : DataType) (useDefault : Bool) :
    (s.groupChoice fs).key? s.store type useDefault = none
  stays (h : Disagree names) {p : Pass} (hp : s.plan a = .ok p) {j : Nat} {i : Instr}
    (hi : s.method.code[j]? = some i) (hliteral : i.literal?.isSome)
    (hx : a.facts.Same x (.instruction j)) : p.edits.at_ j i = [i]
  unclaimed (h : ∀ g, ¬names g) (type : DataType) (useDefault : Bool) :
    (s.groupChoice fs).key? s.store type useDefault =
      if useDefault && s.store.hasDefault type then some (.default type) else none

variable {s : Subject} {a : Solution} {x : Source} {fs : Facts} {names names' : String → Prop}

/-- Literals of a class whose destinations disagree stay. -/
theorem at_of_isConflict {p : Pass} {j : Nat} {i : Instr} (hfs : a.facts.facts? x = some fs)
    (hconflict : (s.groupChoice fs).isConflict) (hp : s.plan a = .ok p)
    (hi : s.method.code[j]? = some i) (hliteral : i.literal?.isSome)
    (hx : a.facts.Same x (.instruction j)) : p.edits.at_ j i = [i] := by
  cases hinstead : p.edits.replacements.get? j with
  | none => exact Edits.at_of_get?_none hinstead
  | some instead =>
    obtain ⟨value, root, facts, w, sub, hat, hverdict, -⟩ := plan_literal hp hi hliteral hinstead
    obtain ⟨-, -, hfacts⟩ := literalAt?_eq_some hat
    obtain rfl := Option.some.inj ((hfs.symm.trans (FactTable.facts?_of_same hx)).trans hfacts)
    obtain ⟨key, hkey, -⟩ := verdict_eq_replaced hverdict
    obtain ⟨first, other, hc⟩ := GroupChoice.eq_conflict hconflict
    simp [hc, GroupChoice.key?] at hkey

theorem isConflict_iff {l : List String} (hchoice : s.groupChoice fs = .ofCandidates l)
    (hnames : ∀ g, g ∈ l ↔ names g) : (s.groupChoice fs).isConflict ↔ Disagree names := by
  rw [hchoice, GroupChoice.isConflict_ofCandidates_iff]
  simp only [Disagree, hnames, exists_and_left]

theorem resolves_of_mem_iff {l : List String} (hfs : a.facts.facts? x = some fs)
    (hchoice : s.groupChoice fs = .ofCandidates l) (hnames : ∀ g, g ∈ l ↔ names g) :
    s.Resolves a x fs names where
  named type useDefault g := by
    have hkey : (s.groupChoice fs).key? s.store type useDefault = some (.named g) ↔
        s.groupChoice fs = .named g := by
      cases s.groupChoice fs with
      | unclaimed => simp [GroupChoice.key?]
      | _ => simp [GroupChoice.key?]
    rw [hkey, hchoice, GroupChoice.ofCandidates_eq_named_iff]
    simp only [hnames]
    exact ⟨fun ⟨⟨g', hg'⟩, hall⟩ => ⟨hall g' hg' ▸ hg', hall⟩, fun ⟨hg, hall⟩ => ⟨⟨g, hg⟩, hall⟩⟩
  isConflict := isConflict_iff hchoice hnames
  conflict h type useDefault := by
    obtain ⟨first, other, hc⟩ := GroupChoice.eq_conflict ((isConflict_iff hchoice hnames).2 h)
    rw [hc]
    rfl
  stays h {_} hp {_ _} hi hliteral hx :=
    at_of_isConflict hfs ((isConflict_iff hchoice hnames).2 h) hp hi hliteral hx
  unclaimed hnone type useDefault := by
    have hunclaimed : s.groupChoice fs = .unclaimed := by
      rw [hchoice, GroupChoice.ofCandidates_eq_unclaimed_iff]
      exact fun g hg => hnone g ((hnames g).1 hg)
    rw [hunclaimed]
    rfl

/-- If further groups are named, the choice is still right just if two of those
    before differ, or if none of them is new. -/
theorem Resolves.iff_of_imp (h : s.Resolves a x fs names) (himp : ∀ g, names g → names' g) :
    s.Resolves a x fs names' ↔ Disagree names ∨ ∀ g, names' g → names g := by
  constructor
  · intro h'
    by_cases htwo : Disagree names
    · exact .inl htwo
    · refine .inr fun g hg => ?_
      have hconflict : ¬Disagree names' := fun h₂ => htwo (h.isConflict.1 (h'.isConflict.2 h₂))
      have honly : ∀ g', names' g' → g' = g := fun g' hg' => by
        by_contra hne
        exact hconflict ⟨g', g, hg', hg, hne⟩
      exact ((h.named .int false g).1 ((h'.named .int false g).2 ⟨hg, honly⟩)).1
  · rintro (htwo | hback)
    · have ⟨g, g', hg, hg', hne⟩ := htwo
      have htwo' : Disagree names' := ⟨g, g', himp g hg, himp g' hg', hne⟩
      refine ⟨fun type useDefault g₀ => ?_, ⟨fun _ => htwo', fun _ => h.isConflict.2 htwo⟩,
        fun _ => h.conflict htwo, fun _ => h.stays htwo, fun hnone => absurd (himp g hg) (hnone g)⟩
      rw [h.conflict htwo type useDefault]
      refine ⟨nofun, fun ⟨_, honly⟩ => ?_⟩
      exact absurd ((honly g (himp g hg)).trans (honly g' (himp g' hg')).symm) hne
    · obtain rfl : names = names' := funext fun g => propext ⟨himp g, hback g⟩
      exact h

variable {limit : Nat}

theorem mem_candidates_iff (h : solve s.registry limit s.owner s.method = .ok a)
    (hfs : a.facts.facts? x = some fs) {g : String} :
    g ∈ (s.method.destinations s.owner fs).filterMap (·.group? s.registry s.store.bindings) ↔
      s.Names a x (a.TakesNone x) g := by
  simp only [List.mem_filterMap, mem_destinations_iff h hfs, Names]

/-- The group of a value is the one that its destinations agree on.  Of the calls
    that give a value of its class, the choice counts those that take none; it is
    right about all of them just if those that count disagree already, or if no
    other call names a group that they do not. -/
theorem groupChoice_resolves (h : solve s.registry limit s.owner s.method = .ok a)
    (hfs : a.facts.facts? x = some fs) :
    s.Resolves a x fs (s.Names a x (a.TakesNone x)) ∧
    (s.Resolves a x fs (s.Names a x fun _ => True) ↔
      Disagree (s.Names a x (a.TakesNone x)) ∨
        ∀ g, s.Names a x (fun _ => True) g → s.Names a x (a.TakesNone x) g) := by
  have hresolves : s.Resolves a x fs (s.Names a x (a.TakesNone x)) :=
    resolves_of_mem_iff hfs rfl fun _ => mem_candidates_iff h hfs
  exact ⟨hresolves, hresolves.iff_of_imp fun g ⟨d, hd, hg⟩ => ⟨d, hd.mono fun _ _ => trivial, hg⟩⟩

end Subject

/-! ## Runs -/

def callOf (name descriptor : String) : MethodSite := ⟨"p/Api", name, descriptor, false⟩

/-- A static method of a class `p/A`. -/
def subjectOf (bindings : Bindings) (code : List Instr) : Subject where
  registry := .empty
  store := { Store.empty with bindings }
  config := {}
  owner := "p/A"
  majorVersion := 52
  method :=
    { access := Access.static, name := "f", descriptor := "()V", code, tryBlocks := [],
      maxLocals := 1, maxStack := 2 }

/-- A value that is passed to two calls. -/
def clash : Subject :=
  subjectOf ((Bindings.empty.declareParam (callOf "paint" "(I)V").member 0 "color").declareParam
      (callOf "set" "(I)V").member 0 "mode")
    [.push (.int 1), .simple .dup, .method .invokestatic (callOf "paint" "(I)V"),
      .method .invokestatic (callOf "set" "(I)V"), .simple (.return_ none)]

theorem groupChoice_resolves_clash : ∃ a fs p,
    solve clash.registry defaultStepLimit clash.owner clash.method = .ok a ∧
    a.facts.facts? (.instruction 0) = some fs ∧
    (clash.groupChoice fs).key? clash.store .int true = none ∧ (clash.groupChoice fs).isConflict ∧
    clash.plan a = .ok p ∧ p.edits.at_ 0 (.push (.int 1)) = [.push (.int 1)] := by
  have hrun : (solve clash.registry defaultStepLimit clash.owner clash.method).map (fun a =>
      ((a.facts.facts? (.instruction 0)).map (·.paramUsages), (clash.plan a).toOption.isSome)) =
      .ok (some (.insert (.singleton ⟨2, 0⟩) ⟨3, 0⟩), true) := by cbv
  obtain ⟨a, ha, hrun⟩ := map_eq_ok.1 hrun
  obtain ⟨hfacts, hplan⟩ := Prod.mk.inj hrun
  obtain ⟨fs, hfs, husages⟩ := Option.map_eq_some_iff.1 hfacts
  obtain ⟨p, hp⟩ := Option.isSome_iff_exists.1 hplan
  have hp := toOption_eq_some.1 hp
  have hknows {c : Argument} (hc : c ∈ fs.paramUsages) :
      a.facts.Knows (.instruction 0) (.paramUsage c) := ⟨fs, hfs, hc⟩
  have hdisagree :
      Subject.Disagree (clash.Names a (.instruction 0) (a.TakesNone (.instruction 0))) :=
    ⟨"color", "mode",
      ⟨_, .argument (hknows (c := ⟨2, 0⟩) (by rw [husages]; decide)) rfl, by cbv⟩,
      ⟨_, .argument (hknows (c := ⟨3, 0⟩) (by rw [husages]; decide)) rfl, by cbv⟩, by decide⟩
  have hresolves := (Subject.groupChoice_resolves ha hfs).1
  have hsame : a.facts.Same (.instruction 0) (.instruction 0) :=
    (hknows (c := ⟨2, 0⟩) (by rw [husages]; decide)).same_self
  exact ⟨a, fs, p, ha, hfs, hresolves.conflict hdisagree .int true, hresolves.isConflict.2 hdisagree,
    hp, hresolves.stays hdisagree hp rfl rfl hsame⟩

/-- A loop that goes on with what a call makes of its value. -/
def feedback : Subject :=
  subjectOf ((Bindings.empty.declareParam (callOf "next" "(I)I").member 0 "mode").declareReturn
      (callOf "next" "(I)I").member "color")
    [.push (.int 5), .var (.store .int) 0, .label 0, .var (.load .int) 0,
      .method .invokestatic (callOf "next" "(I)I"), .var (.store .int) 0, .jump .goto 0]

/-- The argument and the result of a call are one value, and the group of the
    result is not asked for. -/
theorem feedback_misses_conflict : ∃ a fs,
    solve feedback.registry defaultStepLimit feedback.owner feedback.method = .ok a ∧
    a.facts.facts? (.instruction 0) = some fs ∧
    Subject.Disagree (feedback.Names a (.instruction 0) fun _ => True) ∧
    (feedback.groupChoice fs).key? feedback.store .int false = some (.named "mode") ∧
    (feedback.groupChoice fs).isConflict = false := by
  have hrun : (solve feedback.registry defaultStepLimit feedback.owner feedback.method).map (fun a =>
      ((a.facts.facts? (.instruction 0)).map fun fs => (fs.paramUsages, feedback.groupChoice fs),
        a.facts.root? (.instruction 0), a.facts.root? (.instruction 4))) =
      .ok (some (.singleton ⟨4, 0⟩, .named "mode"), some (.instruction 0), some (.instruction 0)) := by
    cbv
  obtain ⟨a, ha, hrun⟩ := map_eq_ok.1 hrun
  obtain ⟨hfacts, hroots⟩ := Prod.mk.inj hrun
  obtain ⟨hroot, hroot'⟩ := Prod.mk.inj hroots
  obtain ⟨fs, hfs, hfacts⟩ := Option.map_eq_some_iff.1 hfacts
  obtain ⟨husages, hchoice⟩ := Prod.mk.inj hfacts
  have hknows : a.facts.Knows (.instruction 0) (.paramUsage ⟨4, 0⟩) :=
    ⟨fs, hfs, by rw [Facts.Holds, husages]; decide⟩
  have hsame : a.facts.Same (.instruction 0) (.instruction 4) := ⟨_, hroot, hroot'⟩
  refine ⟨a, fs, ha, hfs, ⟨"mode", "color", ⟨_, .argument hknows rfl, by cbv⟩,
    ⟨_, .result hsame rfl trivial, by cbv⟩, by decide⟩, ?_, ?_⟩
  · rw [hchoice]
    rfl
  · rw [hchoice]
    rfl

end ConstRestore
