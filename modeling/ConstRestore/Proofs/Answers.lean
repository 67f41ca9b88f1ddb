/-
  What a backend answers by itself.

  Asked with nothing remembered, a backend answers a question with what the
  body of the question ends with (`Backend.Answers`), if it ends at all.

  * `Registry.answers_iff`: for a registry these are the answers that the
    searches of the hierarchy define;
  * `Script.exists_ends_evaluate`: evaluation that asks for its constants gives
    the value of the expression;
  * `Backend.Answers.within`: whatever backend answers a question, a registry
    that knows enough of its classes gives the same answer.
-/
import ConstRestore.Registry.Memo
import ConstRestore.Proofs.Hierarchy

namespace ConstRestore

variable {α : Type} {b : Backend}

/-! ## Scripts by themselves -/

/-- A script ends with an outcome in a number of steps at most, where everything that is asked for
    is worked out. -/
inductive Script.Ends (b : Backend) : {α : Type} → Script α → α → Nat → Prop
  | done {α : Type} (a : α) (n : Nat) : Ends b (done a) a n
  | pause {α : Type} {next : Script α} {out : α} {n : Nat} (h : Ends b next out n) :
      Ends b (pause next) out (n + 1)
  | ask {α : Type} {q : Query} {next : q.Answer → Script α} {a : q.Answer} {out : α} {m n : Nat}
      (hbody : Ends b (q.body b) a m) (hnext : Ends b (next a) out n) :
      Ends b (ask q next) out (m + n + 2)

/-- The answer that a backend gives with nothing remembered. -/
def Backend.Answers (b : Backend) (q : Query) (a : q.Answer) : Prop := ∃ n, (q.body b).Ends b a n

namespace Script

theorem Ends.mono {p : Script α} {out : α} {m n : Nat} (h : p.Ends b out m) (hmn : m ≤ n) :
    p.Ends b out n := by
  induction h generalizing n with
  | done a => exact .done a n
  | @pause _ _ _ k _ ih =>
    obtain ⟨n, rfl⟩ := Nat.exists_eq_add_of_le' (Nat.one_le_of_lt hmn)
    exact .pause (ih (by omega))
  | @ask _ _ _ _ _ k l hbody _ _ ih =>
    obtain ⟨n, rfl⟩ := Nat.exists_eq_add_of_le hmn
    have h := ask hbody (ih (Nat.le_add_right l n))
    rwa [show k + (l + n) + 2 = k + l + 2 + n by omega] at h

theorem Ends.unique {p : Script α} {out out' : α} {m n : Nat} (h : p.Ends b out m)
    (h' : p.Ends b out' n) : out = out' := by
  induction h generalizing n with
  | done =>
    cases h'
    rfl
  | pause _ ih =>
    cases h' with
    | pause h' => exact ih h'
  | ask _ _ ihbody ihnext =>
    cases h' with
    | ask hbody' hnext' =>
      obtain rfl := ihbody hbody'
      exact ihnext hnext'

end Script

theorem Backend.Answers.unique {q : Query} {a a' : q.Answer} (h : b.Answers q a)
    (h' : b.Answers q a') : a = a' := by
  obtain ⟨m, h⟩ := h
  obtain ⟨n, h'⟩ := h'
  exact h.unique h'

/-! ## Registries -/

namespace Script

/-- A question to which there is an answer is asked on the way. -/
theorem exists_ends_ask {q : Query} {a : q.Answer} {next : q.Answer → Script α} {out : α}
    (ha : b.Answers q a) (h : ∃ n, (next a).Ends b out n) : ∃ n, (ask q next).Ends b out n := by
  obtain ⟨m, ha⟩ := ha
  obtain ⟨n, h⟩ := h
  exact ⟨_, .ask ha h⟩

end Script

namespace Registry

open Script

variable {r : Registry}

theorem answers_info (r : Registry) (name : String) :
    r.Answers (.info name) (r.info? name) := ⟨1, .pause (.done _ 0)⟩

theorem answers_search (r : Registry) (target : String) (pending visited : List String) :
    r.Answers (.search target pending visited) (r.reaches target pending visited) := by
  induction pending, visited using preorderFrom.induct r .backwards with
  | case1 visited =>
    rw [reaches, preorderFrom_nil]
    exact ⟨0, .done _ 0⟩
  | case2 x pending visited hx ih =>
    rw [reaches, preorderFrom_cons, if_pos hx]
    rw [Backend.Answers, Query.body, if_pos hx]
    exact exists_ends_ask ih ⟨0, .done _ 0⟩
  | case3 x pending visited hx hc ih =>
    rw [reaches, preorderFrom_cons, if_neg hx, List.any_cons, hc, Option.any_none, Bool.false_or]
    rw [Backend.Answers, Query.body, if_neg hx]
    refine exists_ends_ask (r.answers_info x) ?_
    rw [hc]
    exact exists_ends_ask ih ⟨0, .done _ 0⟩
  | case4 x pending visited hx c hc ih =>
    rw [reaches, preorderFrom_cons, if_neg hx, List.any_cons, hc, Option.any_some]
    rw [Backend.Answers, Query.body, if_neg hx]
    refine exists_ends_ask (r.answers_info x) ?_
    rw [hc]
    dsimp only
    split_ifs with htarget
    · rw [decide_eq_true htarget, Bool.true_or]
      exact ⟨0, .done _ 0⟩
    · rw [decide_eq_false htarget, Bool.false_or]
      exact exists_ends_ask ih ⟨0, .done _ 0⟩

/-- A search from a class finds what is above it. -/
theorem reaches_iff {target source : String} : r.reaches target [source] [] ↔
    Relation.TransGen (r.Leads ClassInfo.supertypes) source target := by
  have hleads : r.Leads (·.supertypes.reverse) = r.Leads ClassInfo.supertypes := by
    funext x y
    simp only [Leads, List.mem_reverse]
  have hlisted (x : String) : x ∈ r.preorderFrom .backwards [source] [] ↔
      Relation.ReflTransGen (r.Leads ClassInfo.supertypes) source x := hleads ▸ mem_preorder_iff
  simp only [reaches, List.any_eq_true, Option.any_eq_true, decide_eq_true_eq, hlisted,
    Relation.TransGen.tail'_iff, Leads]

theorem answers_assignable (r : Registry) (target source : String) :
    r.Answers (.assignable target source) (r.isAssignable target source) := by
  rw [Backend.Answers, Query.body]
  split_ifs with h
  · have htrue : r.isAssignable target source = true := by
      rcases h with rfl | rfl
      · exact r.isAssignable_self _
      · exact r.isAssignable_object _
    rw [htrue]
    exact ⟨0, .done _ 0⟩
  · obtain ⟨hsource, hobject⟩ := not_or.1 h
    have heq : r.isAssignable target source = r.reaches target [source] [] := by
      rw [Bool.eq_iff_iff, reaches_iff, isAssignable_iff, or_iff_right hobject, Extends,
        Relation.reflTransGen_iff_eq_or_transGen, or_iff_right hsource]
    rw [heq]
    exact exists_ends_ask (r.answers_search target [source] []) ⟨0, .done _ 0⟩

theorem eq_some_of_toList {s : Option String} {x : String} {xs : List String}
    (h : s.toList = x :: xs) : s = some x ∧ xs = [] := by
  cases s <;> simp_all

theorem preorderFrom_superclass (r : Registry) (p : String) (visited : List String) :
    r.preorderFrom .superclasses [p] visited =
      if p ∈ visited then []
      else p :: r.preorderFrom .superclasses ((r.info? p).bind (·.superclass)).toList
        (p :: visited) := by
  have htoList : ((r.info? p).map Direction.superclasses.next).getD [] =
      ((r.info? p).bind (·.superclass)).toList := by cases r.info? p <;> rfl
  rw [preorderFrom_cons, preorderFrom_nil, htoList, List.append_nil]

theorem climb_of_superclass {b current p : String} {visited : List String}
    (hp : (r.info? current).bind (·.superclass) = some p) : r.climb b current visited =
      if p ∈ visited then objectClass
      else if r.isAssignable p b then p else r.climb b p (p :: visited) := by
  rw [climb, hp, Option.toList_some, preorderFrom_superclass]
  split_ifs with hvisited hassignable
  · rfl
  · simp [hassignable]
  · simp [hassignable, climb]

/-- A climb takes a step and goes on from there. -/
theorem answers_climb_of_superclass {b current p : String} {visited : List String}
    (hp : (r.info? current).bind (·.superclass) = some p)
    (h : p ∉ visited → r.Answers (.climb b p (p :: visited)) (r.climb b p (p :: visited))) :
    r.Answers (.climb b current visited) (r.climb b current visited) := by
  rw [climb_of_superclass hp, Backend.Answers, Query.body]
  refine exists_ends_ask (r.answers_info current) ?_
  rw [hp]
  dsimp only
  split_ifs with hvisited hassignable
  · exact ⟨0, .done _ 0⟩
  · refine exists_ends_ask (r.answers_assignable p b) ?_
    rw [if_pos hassignable]
    exact ⟨0, .done _ 0⟩
  · refine exists_ends_ask (r.answers_assignable p b) ?_
    rw [if_neg hassignable]
    exact exists_ends_ask (h hvisited) ⟨0, .done _ 0⟩

theorem answers_climb (r : Registry) (b current : String) (visited : List String) :
    r.Answers (.climb b current visited) (r.climb b current visited) := by
  generalize hpending : ((r.info? current).bind (·.superclass)).toList = pending
  induction pending, visited using preorderFrom.induct r .superclasses generalizing current with
  | case1 visited =>
    rw [climb, hpending, preorderFrom_nil, Backend.Answers, Query.body]
    refine exists_ends_ask (r.answers_info current) ?_
    rw [Option.toList_eq_nil_iff.1 hpending]
    exact ⟨0, .done _ 0⟩
  | case2 x pending visited hx ih =>
    obtain ⟨hp, -⟩ := eq_some_of_toList hpending
    exact answers_climb_of_superclass hp fun hvisited => absurd hx hvisited
  | case3 x pending visited hx hc ih =>
    obtain ⟨hp, rfl⟩ := eq_some_of_toList hpending
    exact answers_climb_of_superclass hp fun _ => ih x (by rw [hc]; rfl)
  | case4 x pending visited hx c hc ih =>
    obtain ⟨hp, rfl⟩ := eq_some_of_toList hpending
    exact answers_climb_of_superclass hp fun _ => ih x (by simp [hc, Direction.next])

/-- What is above `a` was visited or is next. -/
def SuperclassVisited (r : Registry) (a : String) (s : Option String) (visited : List String) : Prop :=
  ∀ p ∈ (r.info? a).bind (·.superclass), p ∈ s ∨ p ∈ visited

theorem find?_superclasses_cons {a x : String} {f : String → Bool} (ha : f a = false)
    {visited visited' : List String} (hvisited : ∀ y, y ∈ visited' ↔ y = a ∨ y ∈ visited)
    (hs : r.SuperclassVisited a (some x) visited) (hx : x ∉ visited)
    (h : (r.preorderFrom .superclasses ((r.info? x).bind (·.superclass)).toList
        (x :: visited')).find? f =
      (r.preorderFrom .superclasses ((r.info? x).bind (·.superclass)).toList
        (x :: visited)).find? f) :
    (r.preorderFrom .superclasses [x] visited').find? f =
      (r.preorderFrom .superclasses [x] visited).find? f := by
  rw [preorderFrom_superclass, preorderFrom_superclass, if_neg hx]
  rcases eq_or_ne x a with rfl | hne
  · -- The class itself is passed over, and what is above it was visited.
    rw [if_pos ((hvisited x).2 (.inl rfl)), List.find?_cons_of_neg (by simpa using ha)]
    cases hsuper : (r.info? x).bind (·.superclass) with
    | none => rw [Option.toList_none, preorderFrom_nil]
    | some p =>
      have hmem : p ∈ x :: visited := by
        rcases hs p hsuper with hp | hp
        · exact List.mem_cons.2 (.inl (Option.some.inj hp).symm)
        · exact List.mem_cons_of_mem _ hp
      rw [Option.toList_some, preorderFrom_superclass, if_pos hmem]
  · rw [if_neg fun hmem => ((hvisited x).1 hmem).elim hne hx, List.find?_cons, List.find?_cons, h]

/-- A class that is passed over in a chain of superclasses may count as visited. -/
theorem find?_superclasses {a : String} {f : String → Bool} (ha : f a = false) {s : Option String}
    {visited visited' : List String} (hvisited : ∀ y, y ∈ visited' ↔ y = a ∨ y ∈ visited)
    (hs : r.SuperclassVisited a s visited) :
    (r.preorderFrom .superclasses s.toList visited').find? f =
      (r.preorderFrom .superclasses s.toList visited).find? f := by
  have hnext {x : String} {s : Option String} {visited : List String}
      (hs : r.SuperclassVisited a (some x) visited) : r.SuperclassVisited a s (x :: visited) := by
    intro p hp
    rcases hs p hp with h | h
    · exact .inr (List.mem_cons.2 (.inl (Option.some.inj h).symm))
    · exact .inr (List.mem_cons_of_mem _ h)
  have hcons {x : String} {visited visited' : List String}
      (hvisited : ∀ y, y ∈ visited' ↔ y = a ∨ y ∈ visited) (y : String) :
      y ∈ x :: visited' ↔ y = a ∨ y ∈ x :: visited := by
    simp only [List.mem_cons, hvisited, or_left_comm]
  generalize hpending : s.toList = pending
  induction pending, visited using preorderFrom.induct r .superclasses
    generalizing s visited' with
  | case1 visited => simp only [preorderFrom_nil]
  | case2 x pending visited hx ih =>
    obtain ⟨rfl, rfl⟩ := eq_some_of_toList hpending
    rw [preorderFrom_superclass, preorderFrom_superclass, if_pos hx,
      if_pos ((hvisited x).2 (.inr hx))]
  | case3 x pending visited hx hc ih =>
    obtain ⟨rfl, rfl⟩ := eq_some_of_toList hpending
    refine find?_superclasses_cons ha hvisited hs hx ?_
    simpa [hc] using ih (s := none) (hcons hvisited) (hnext hs) rfl
  | case4 x pending visited hx c hc ih =>
    obtain ⟨rfl, rfl⟩ := eq_some_of_toList hpending
    refine find?_superclasses_cons ha hvisited hs hx ?_
    simpa [hc, Direction.next] using ih (s := c.superclass) (hcons hvisited) (hnext hs)
      (by simp [Direction.next])

theorem answers_common (r : Registry) (a b : String) :
    r.Answers (.common a b) (r.commonSuperclass a b) := by
  rw [Backend.Answers, Query.body, commonSuperclass]
  refine exists_ends_ask (r.answers_assignable a b) ?_
  split_ifs with hab hba hinterface
  · exact ⟨0, .done _ 0⟩
  · refine exists_ends_ask (r.answers_assignable b a) ?_
    rw [if_pos hba]
    exact ⟨0, .done _ 0⟩
  all_goals
    refine exists_ends_ask (r.answers_assignable b a) ?_
    rw [if_neg hba]
    refine exists_ends_ask (r.answers_info a) (exists_ends_ask (r.answers_info b) ?_)
    rw [isInterface, isInterface] at hinterface
  · rw [if_pos hinterface]
    exact ⟨0, .done _ 0⟩
  · have hclimb : r.climb b a [] =
        ((r.superclassChain a).find? (r.isAssignable · b)).getD objectClass := by
      have ha : r.isAssignable a b = false := by simpa using hab
      have hvisited : ∀ y, y ∈ [a] ↔ y = a ∨ y ∈ ([] : List String) := by simp
      rw [superclassChain, preorder, preorderFrom_superclass, if_neg List.not_mem_nil,
        List.find?_cons_of_neg (by simpa using hab), climb]
      exact congrArg (·.getD objectClass)
        (find?_superclasses (a := a) (f := (r.isAssignable · b)) ha hvisited fun p hp => .inl hp).symm
    rw [if_neg hinterface, ← hclimb]
    exact exists_ends_ask (r.answers_climb b a []) ⟨0, .done _ 0⟩

/-- What a registry answers by itself is what its searches define. -/
theorem answers_iff {q : Query} {a : q.Answer} : r.Answers q a ↔ a = r.answer q := by
  have hanswer : r.Answers q (r.answer q) := by
    cases q with
    | constant | constants | info => exact ⟨1, .pause (.done _ 0)⟩
    | assignable target source => exact r.answers_assignable target source
    | search target pending visited => exact r.answers_search target pending visited
    | common c d => exact r.answers_common c d
    | climb c current visited => exact r.answers_climb c current visited
  exact ⟨fun h => h.unique hanswer, fun h => h ▸ hanswer⟩

end Registry

/-! ## Evaluation -/

namespace Script

theorem Ends.bind {β : Type} {p : Script α} {k : α → Script β} {a : α} {out : β} {m n : Nat}
    (h : p.Ends b a m) (hk : (k a).Ends b out n) : (p.bind k).Ends b out (m + n) := by
  induction h with
  | done a m => exact hk.mono (Nat.le_add_left n m)
  | @pause _ _ _ m _ ih =>
    rw [Nat.add_right_comm]
    exact .pause (ih hk)
  | @ask _ _ _ _ _ l m hbody _ _ ih =>
    rw [show l + m + 2 + n = l + (m + n) + 2 by omega]
    exact .ask hbody (ih hk)

theorem exists_ends_bind {β : Type} {p : Script α} {k : α → Script β} {a : α} {out : β}
    (h : ∃ m, p.Ends b a m) (hk : ∃ n, (k a).Ends b out n) : ∃ n, (p >>= k).Ends b out n := by
  obtain ⟨m, h⟩ := h
  obtain ⟨n, hk⟩ := hk
  exact ⟨m + n, h.bind hk⟩

theorem exists_ends_forM {β : Type} {f : β → Script Unit} (h : ∀ x, ∃ n, (f x).Ends b () n)
    (xs : List β) : ∃ n, (xs.forM f).Ends b () n := by
  induction xs with
  | nil => exact ⟨0, .done _ 0⟩
  | cons x xs ih => exact exists_ends_bind (h x) ih

theorem exists_ends_findConstant (r : Registry) (name : String) (owners : List String) :
    ∃ n, (findConstant name owners).Ends r.toBackend (owners.findSome? (r.constant? · name)) n := by
  induction owners with
  | nil => exact ⟨0, .done _ 0⟩
  | cons owner owners ih =>
    have hconstant : r.Answers (.constant owner name) (r.constant? owner name) :=
      ⟨1, .pause (.done _ 0)⟩
    refine exists_ends_ask hconstant ?_
    rw [List.findSome?_cons]
    cases r.constant? owner name with
    | none => exact ih
    | some c => exact ⟨0, .done _ 0⟩

/-- Evaluation gives the value of the expression, whatever constants it asks for. -/
theorem exists_ends_evaluate (r : Registry) (e : Expr) :
    ∃ n, (evaluate r e).Ends r.toBackend (e.evaluate r) n := by
  refine exists_ends_bind (exists_ends_forM (fun f => ?_) (e.consulted r)) ⟨0, .done _ 0⟩
  cases f.name with
  | none => exact ⟨0, .done _ 0⟩
  | some name =>
    exact exists_ends_bind (exists_ends_findConstant r name (r.fieldOwners f.owner)) ⟨0, .done _ 0⟩

end Script

/-! ## Parts of a backend -/

namespace Backend

/-- A backend that knows no class but those in the list.  What it says of the others leads nowhere,
    so all its searches end. -/
def within (b : Backend) (h : b.Declared) (l : List String) : Registry where
  constant? := b.constant?
  constants? := b.constants?
  info? name := if name ∈ l then b.info? name else none
  declared := h
  exists_above := Backend.exists_closed (fun _ _ hc => (Option.ite_none_right_eq_some.1 hc).1) _
  exists_around := Backend.exists_closed (fun _ _ hc => (Option.ite_none_right_eq_some.1 hc).1) _

/-- Only the info of a class depends on what is known. -/
theorem exists_body_within (h : b.Declared) (q : Query) :
    ∃ l, ∀ l', l ⊆ l' → q.body b = q.body (b.within h l').toBackend := by
  cases q with
  | info name =>
    refine ⟨[name], fun l' hl => ?_⟩
    simp only [Query.body, within, if_pos (hl List.mem_cons_self)]
  | search _ pending _ => exact ⟨[], fun _ _ => by cases pending <;> rfl⟩
  | _ => exact ⟨[], fun _ _ => rfl⟩

end Backend

/-- A script that ends has asked for finitely many classes. -/
theorem Script.Ends.within (hb : b.Declared) {p : Script α} {out : α} {n : ℕ}
    (h : p.Ends b out n) : ∃ l, ∀ l', l ⊆ l' → p.Ends (b.within hb l').toBackend out n := by
  induction h with
  | done a n => exact ⟨[], fun _ _ => .done a n⟩
  | pause _ ih =>
    obtain ⟨l, hl⟩ := ih
    exact ⟨l, fun l' h => .pause (hl l' h)⟩
  | @ask _ q _ _ _ _ _ _ _ ihbody ihnext =>
    obtain ⟨l₀, hbody⟩ := b.exists_body_within hb q
    obtain ⟨l₁, hl₁⟩ := ihbody
    obtain ⟨l₂, hl₂⟩ := ihnext
    refine ⟨l₀ ++ l₁ ++ l₂, fun l' h => ?_⟩
    obtain ⟨h, h₂⟩ := List.append_subset.1 h
    obtain ⟨h₀, h₁⟩ := List.append_subset.1 h
    exact .ask (hbody l' h₀ ▸ hl₁ l' h₁) (hl₂ l' h₂)

/-- What a backend answers, every registry answers that knows enough of its classes, whether all
    searches of the backend end or not. -/
theorem Backend.Answers.within (hb : b.Declared) {q : Query} {a : q.Answer} (h : b.Answers q a) :
    ∃ l, ∀ l', l ⊆ l' → a = (b.within hb l').answer q := by
  obtain ⟨n, h⟩ := h
  obtain ⟨l₀, hbody⟩ := b.exists_body_within hb q
  obtain ⟨l₁, hl⟩ := h.within hb
  refine ⟨l₀ ++ l₁, fun l' h => Registry.answers_iff.1 ⟨n, ?_⟩⟩
  obtain ⟨h₀, h₁⟩ := List.append_subset.1 h
  exact hbody l' h₀ ▸ hl l' h₁

end ConstRestore
