/-
  Searching the class hierarchy.

  * `preorder d start` lists what can be reached from `start` in depth-first
    preorder, each class once.
  * `seek` is the recursion that looks for something on the way and stops at
    the first class that has it; what was visited is handed from one supertype
    to the next.
  * `isAssignable` and `commonSuperclass` are the two questions that a type
    join asks, `findConstant?` is field resolution.

  A search ends because it visits no class twice and the classes that it may
  still come to are finitely many (`remaining`).
-/
import ConstRestore.Registry

namespace ConstRestore

theorem exists_least {p : Nat → Prop} (h : ∃ n, p n) : ∃ n, p n ∧ ∀ m, p m → n ≤ m := by
  obtain ⟨n, hn⟩ := h
  induction n using Nat.strongRecOn with
  | _ n ih =>
    by_cases hless : ∃ m, m < n ∧ p m
    · obtain ⟨m, hm, hpm⟩ := hless
      exact ih m hm hpm
    · exact ⟨n, hn, fun m hm => Nat.le_of_not_lt fun hlt => hless ⟨m, hlt, hm⟩⟩

/-- Where a search goes on from a class. -/
inductive Direction where
  | supertypes
  | fields
  | superclasses
  /-- To the supertypes, the last one first. -/
  | backwards
  | outer

def Direction.next : Direction → ClassInfo → List String
  | supertypes => ClassInfo.supertypes
  | fields => ClassInfo.fieldSupertypes
  | superclasses => fun c => c.superclass.toList
  | backwards => fun c => c.supertypes.reverse
  | outer => ClassInfo.outerClasses

namespace Registry

variable {r : Registry} {d : Direction} {x : String} {l pending visited : List String}

theorem exists_closed (r : Registry) (d : Direction) (x : String) :
    ∃ l, x ∈ l ∧ r.Closed d.next l := by
  have habove {next : ClassInfo → List String} (h : ∀ c, ∀ y ∈ next c, y ∈ c.supertypes) :
      ∃ l, x ∈ l ∧ r.Closed next l := by
    obtain ⟨l, hx, hl⟩ := r.exists_above x
    exact ⟨l, hx, fun y hy c hc z hz => hl y hy c hc z (h c z hz)⟩
  cases d with
  | supertypes => exact r.exists_above x
  | fields => exact habove fun c y hy => List.mem_append.2 (List.mem_append.1 hy).symm
  | superclasses => exact habove fun c y hy => List.mem_append_left _ hy
  | backwards => exact habove fun c y hy => List.mem_reverse.1 hy
  | outer => exact r.exists_around x

/-! ## What is left of a search -/

/-- The list has all that a search may still come to: what is pending, and
    what that leads to, up to what was visited. -/
structure Spans (r : Registry) (d : Direction) (l pending visited : List String) : Prop where
  pending : ∀ x ∈ pending, x ∈ visited ∨ x ∈ l
  closed : ∀ x ∈ l, ∀ c, r.info? x = some c → ∀ y ∈ d.next c, y ∈ visited ∨ y ∈ l

theorem exists_spans (r : Registry) (d : Direction) (pending visited : List String) :
    ∃ l, r.Spans d l pending visited := by
  induction pending with
  | nil => exact ⟨[], by simp, by simp⟩
  | cons x pending ih =>
    obtain ⟨l, hl⟩ := ih
    obtain ⟨l', hx, hl'⟩ := r.exists_closed d x
    refine ⟨l' ++ l, fun y hy => ?_, fun y hy c hc z hz => ?_⟩
    · rcases List.mem_cons.1 hy with rfl | hy
      · exact .inr (List.mem_append_left _ hx)
      · exact (hl.pending y hy).imp_right (List.mem_append_right _)
    · rcases List.mem_append.1 hy with hy | hy
      · exact .inr (List.mem_append_left _ (hl' y hy c hc z hz))
      · exact (hl.closed y hy c hc z hz).imp_right (List.mem_append_right _)

theorem exists_least_spans (r : Registry) (d : Direction) (pending visited : List String) :
    ∃ n, (∃ l, r.Spans d l pending visited ∧ l.length = n) ∧
      ∀ m, (∃ l, r.Spans d l pending visited ∧ l.length = m) → n ≤ m :=
  have ⟨l, hl⟩ := r.exists_spans d pending visited
  exists_least ⟨l.length, l, hl, rfl⟩

/-- The number of classes that a search may still come to. -/
noncomputable def remaining (r : Registry) (d : Direction) (pending visited : List String) : Nat :=
  Classical.choose (r.exists_least_spans d pending visited)

theorem remaining_le (h : r.Spans d l pending visited) :
    r.remaining d pending visited ≤ l.length :=
  (Classical.choose_spec (r.exists_least_spans d pending visited)).2 _ ⟨l, h, rfl⟩

theorem exists_spans_remaining (r : Registry) (d : Direction) (pending visited : List String) :
    ∃ l, r.Spans d l pending visited ∧ l.length = r.remaining d pending visited :=
  (Classical.choose_spec (r.exists_least_spans d pending visited)).1

/-- A visit leaves less, wherever the search goes on from there. -/
theorem remaining_lt {pending' visited' : List String} (hx : x ∉ visited)
    (hvisited : ∀ y ∈ x :: visited, y ∈ visited')
    (hpending : ∀ y ∈ pending', y ∈ pending ∨ ∃ c, r.info? x = some c ∧ y ∈ d.next c) :
    r.remaining d pending' visited' < r.remaining d (x :: pending) visited := by
  obtain ⟨l, hl, hlength⟩ := r.exists_spans_remaining d (x :: pending) visited
  have hmem : x ∈ l := (hl.pending x List.mem_cons_self).resolve_left hx
  have herase {y : String} (hy : y ∈ visited ∨ y ∈ l) : y ∈ visited' ∨ y ∈ l.erase x := by
    by_cases hyx : y = x
    · exact .inl (hvisited y (hyx ▸ List.mem_cons_self))
    · exact hy.imp (fun h => hvisited y (List.mem_cons_of_mem _ h)) (List.mem_erase_of_ne hyx).2
  have hspans : r.Spans d (l.erase x) pending' visited' := by
    refine ⟨fun y hy => ?_, fun y hy c hc z hz => ?_⟩
    · rcases hpending y hy with hy | ⟨c, hc, hy⟩
      · exact herase (hl.pending y (List.mem_cons_of_mem _ hy))
      · exact herase (hl.closed x hmem c hc y hy)
    · exact herase (hl.closed y (List.mem_of_mem_erase hy) c hc z hz)
  have hless := remaining_le hspans
  rw [List.length_erase_of_mem hmem] at hless
  have hpos := List.length_pos_of_mem hmem
  omega

/-- A search that skips what was visited has no more left, and less pending. -/
theorem lex_tail (r : Registry) (d : Direction) (x : String) (pending visited : List String) :
    Prod.Lex (· < ·) (· < ·) (r.remaining d pending visited, pending.length)
      (r.remaining d (x :: pending) visited, (x :: pending).length) := by
  obtain ⟨l, hl, hlength⟩ := r.exists_spans_remaining d (x :: pending) visited
  have hle : r.remaining d pending visited ≤ r.remaining d (x :: pending) visited :=
    hlength ▸ remaining_le ⟨fun y hy => hl.pending y (List.mem_cons_of_mem _ hy), hl.closed⟩
  rcases Nat.lt_or_eq_of_le hle with hless | heq
  · exact .left _ _ hless
  · rw [heq]
    exact .right _ (Nat.lt_succ_self _)

/-! ## The searches -/

/-- Depth-first preorder over the classes reachable from `pending`, without
    those in `visited`; an unknown class leads nowhere. -/
def preorderFrom (r : Registry) (d : Direction) : List String → List String → List String
  | [], _ => []
  | x :: pending, visited =>
    if _hx : x ∈ visited then preorderFrom r d pending visited
    else
      match _hc : r.info? x with
      | none => x :: preorderFrom r d pending (x :: visited)
      | some c => x :: preorderFrom r d (d.next c ++ pending) (x :: visited)
  termination_by pending visited => (r.remaining d pending visited, pending.length)
  decreasing_by
  · exact r.lex_tail d x pending visited
  · exact .left _ _ (remaining_lt _hx (fun _ h => h) fun _ => .inl)
  · refine .left _ _ (remaining_lt _hx (fun _ h => h) fun y hy => ?_)
    exact (List.mem_append.1 hy).symm.imp_right fun hy => ⟨c, _hc, hy⟩

/-- The classes reachable from `start` in depth-first preorder. -/
def preorder (r : Registry) (d : Direction) (start : String) : List String :=
  r.preorderFrom d [start] []

/-- Looks for something from one class after the other, and in all that a
    class leads to before the next one.  What was visited before is kept. -/
def seek {α : Type} (r : Registry) (d : Direction) (look : String → Option α) :
    (pending visited : List String) → { p : Option α × List String // ∀ x ∈ visited, x ∈ p.2 }
  | [], visited => ⟨(none, visited), fun _ h => h⟩
  | x :: pending, visited =>
    if _hx : x ∈ visited then seek r d look pending visited
    else
      have hcons {y : String} (hy : y ∈ visited) : y ∈ x :: visited := List.mem_cons_of_mem _ hy
      match look x with
      | some a => ⟨(some a, x :: visited), fun _ => hcons⟩
      | none =>
        match _hc : r.info? x with
        | none =>
          let rest := seek r d look pending (x :: visited)
          ⟨rest.1, fun y hy => rest.2 y (hcons hy)⟩
        | some c =>
          match seek r d look (d.next c) (x :: visited) with
          | ⟨(some a, visited'), h⟩ => ⟨(some a, visited'), fun y hy => h y (hcons hy)⟩
          | ⟨(none, visited'), h⟩ =>
            let rest := seek r d look pending visited'
            ⟨rest.1, fun y hy => rest.2 y (h y (hcons hy))⟩
  termination_by pending visited => (r.remaining d pending visited, pending.length)
  decreasing_by
  · exact r.lex_tail d x pending visited
  · exact .left _ _ (remaining_lt _hx (fun _ h => h) fun _ => .inl)
  · exact .left _ _ (remaining_lt _hx (fun _ h => h) fun y hy => .inr ⟨c, _hc, hy⟩)
  · exact .left _ _ (remaining_lt _hx h fun _ => .inl)

/-- What the first class on the way from `start` has. -/
def seek? {α : Type} (r : Registry) (d : Direction) (look : String → Option α) (start : String) :
    Option α :=
  (r.seek d look [start] []).1.1

/-! ## Questions about classes -/

/-- Whether a value of class `source` can be assigned to `target`; array types
    are not handled here. -/
def isAssignable (r : Registry) (target source : String) : Bool :=
  target == objectClass || (r.preorder .supertypes source).contains target

/-- A class and its superclasses, nearest first. -/
def superclassChain (r : Registry) (name : String) : List String := r.preorder .superclasses name

/-- The nearest common superclass.  An interface shares only the root class
    with what is not assignable to it and what it is not assignable to. -/
def commonSuperclass (r : Registry) (a b : String) : String :=
  if r.isAssignable a b then a
  else if r.isAssignable b a then b
  else if r.isInterface a || r.isInterface b then objectClass
  else ((r.superclassChain a).find? (r.isAssignable · b)).getD objectClass

/-- The classes in which field resolution looks for a constant, in order. -/
def fieldOwners (r : Registry) (owner : String) : List String := r.preorder .fields owner

/-- The constant that `owner.name` names: the one of the first class that
    declares it. -/
def findConstant? (r : Registry) (owner name : String) : Option Constant :=
  r.seek? .fields (r.constant? · name) owner

end Registry

end ConstRestore
