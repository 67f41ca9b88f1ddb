/-
  Where values go.

  A `Source` is a place where a value comes from.  The `FactTable` keeps a
  partition of the sources seen so far, and for each class of the partition the
  `Facts` about it: what is recorded of one source holds for its whole class,
  whether the class grew before or after.

  * The classes are trees of sources, each with a link to its parent; `root?`
    follows the links to the root that names the class, and two sources are in
    one class exactly when they have the same root.
  * Links lead to heavier nodes (`Rising`), so they end.
  * `record` adds facts to a class, `unite` joins the classes of a list, the
    smaller tree below the larger one; both shorten the way to the root
    (`compress`).
  * a `FactUpdate` is one such step, so that what an instruction does to the
    table can be listed before it is done.
-/
import ConstRestore.OrderedSet
import ConstRestore.Table
import ConstRestore.DataType

namespace ConstRestore

/-- Where a value comes from. -/
inductive Source where
  /-- Produced by the instruction at an index. -/
  | instruction (index : Nat)
  /-- The value of a parameter, the receiver not counted. -/
  | parameter (index : Nat)
  deriving DecidableEq

namespace Source

/-- Instructions come before parameters. -/
def rank : Source → Nat
  | instruction _ => 0
  | parameter _ => 1

def index : Source → Nat
  | instruction i | parameter i => i

instance : Ord Source := ⟨compareLex (compareOn rank) (compareOn index)⟩

instance : Std.TransOrd Source :=
  inferInstanceAs (Std.TransCmp (compareLex (compareOn rank) (compareOn index)))

instance : Std.LawfulEqOrd Source where
  compare_self := Std.ReflCmp.compare_self
  eq_of_compare {a b} h := by
    replace h : compareLex (compareOn rank) (compareOn index) a b = .eq := h
    simp only [compareLex, compareOn, Ordering.then_eq_eq, Nat.compare_eq_eq] at h
    cases a <;> cases b <;> simp_all [rank, index]

end Source

/-- An argument of a call: the call's index and the position. -/
structure Argument where
  call : Nat
  position : Nat
  deriving DecidableEq

namespace Argument

instance : Ord Argument := ⟨compareLex (compareOn call) (compareOn position)⟩

instance : Std.TransOrd Argument :=
  inferInstanceAs (Std.TransCmp (compareLex (compareOn call) (compareOn position)))

instance : Std.LawfulEqOrd Argument where
  compare_self := Std.ReflCmp.compare_self
  eq_of_compare {a b} h := by
    replace h : compareLex (compareOn call) (compareOn position) a b = .eq := h
    simp only [compareLex, compareOn, Ordering.then_eq_eq, Nat.compare_eq_eq] at h
    cases a
    cases b
    simp_all

end Argument

/-! ## Facts -/

/-- What is known about the values of one class. -/
structure Facts where
  /-- Instructions that consume the value, or produce it from outside. -/
  usages : OrderedSet Nat
  /-- Parameters of the method that the value may come from. -/
  paramSources : OrderedSet Nat
  /-- Arguments that the value is passed as. -/
  paramUsages : OrderedSet Argument
  /-- Types that consumers and pushes imply. -/
  narrowTypes : TypeSet
  deriving DecidableEq

/-- One thing to know about a value. -/
inductive Fact where
  | usage (index : Nat)
  | paramSource (index : Nat)
  | paramUsage (a : Argument)
  | narrowType (t : DataType)
  deriving DecidableEq

namespace Facts

def empty : Facts := ⟨∅, ∅, ∅, .empty⟩

def add (f : Facts) : Fact → Facts
  | .usage i => { f with usages := f.usages.insert i }
  | .paramSource i => { f with paramSources := f.paramSources.insert i }
  | .paramUsage a => { f with paramUsages := f.paramUsages.insert a }
  | .narrowType t => { f with narrowTypes := f.narrowTypes.insert t }

def union (f g : Facts) : Facts :=
  ⟨f.usages.union g.usages, f.paramSources.union g.paramSources,
    f.paramUsages.union g.paramUsages, f.narrowTypes.union g.narrowTypes⟩

end Facts

/-! ## The table -/

/-- A source in the forest of classes. -/
structure Node where
  /-- The next source on the way to the root; a root is its own parent. -/
  parent : Source
  /-- For a root the number of its members; later it does not change. -/
  weight : Nat
  /-- What is known about the class of a root; later there is nothing. -/
  facts : Facts
  positive : 0 < weight

/-- Every source is a root or has a heavier parent. -/
def Rising (nodes : Table Source Node) : Prop :=
  ∀ s n, nodes.get? s = some n →
    n.parent = s ∨ ∃ p, nodes.get? n.parent = some p ∧ n.weight < p.weight

/-- A node may be replaced by one that is not lighter. -/
theorem Rising.set {nodes : Table Source Node} (h : Rising nodes) {s : Source} {n : Node}
    (hold : ∀ old, nodes.get? s = some old → old.weight ≤ n.weight)
    (hparent : n.parent = s ∨ ∃ p, nodes.get? n.parent = some p ∧ n.weight < p.weight) :
    Rising (nodes.set s n) := by
  intro x nx hx
  rw [Table.get?_set] at hx
  split at hx
  · next hxs =>
    subst hxs
    obtain rfl := Option.some.inj hx
    rcases hparent with hparent | ⟨p, hp, hlt⟩
    · exact .inl hparent
    · by_cases hroot : n.parent = x
      · exact .inl hroot
      · exact .inr ⟨p, by rw [Table.get?_set, if_neg hroot, hp], hlt⟩
  · refine (h x nx hx).imp_right ?_
    rintro ⟨p, hp, hlt⟩
    rw [Table.get?_set]
    split
    · next hs => exact ⟨n, rfl, Nat.lt_of_lt_of_le hlt (hold p (hs ▸ hp))⟩
    · exact ⟨p, hp, hlt⟩

/-- A partition of sources with facts for each class: the classes are trees. -/
structure FactTable where
  nodes : Table Source Node
  rising : Rising nodes

namespace FactTable

def empty : FactTable := ⟨∅, nofun⟩

/-- The nodes that are heavier than a weight. -/
def heavier (t : FactTable) (weight : Nat) : List (Source × Node) :=
  t.nodes.entries.filter (weight < ·.2.weight)

theorem length_heavier_lt {t : FactTable} {s : Source} {p : Node} (hp : t.nodes.get? s = some p)
    {weight : Nat} (h : weight < p.weight) :
    (t.heavier p.weight).length < (t.heavier weight).length := by
  have hsub : t.heavier p.weight = (t.heavier weight).filter (p.weight < ·.2.weight) := by
    rw [heavier, heavier, List.filter_filter]
    congr 1
    funext e
    simp only [← Bool.decide_and]
    exact decide_eq_decide.2 ⟨fun he => ⟨he, Nat.lt_trans h he⟩, And.left⟩
  have hmem : (s, p) ∈ t.heavier weight := by
    simpa [heavier, h] using Table.mem_entries_iff.2 hp
  rw [hsub]
  exact List.length_filter_lt_length_iff_exists.2 ⟨_, hmem, by simp⟩

/-- The weight of the tree of a root. -/
def weight (t : FactTable) (s : Source) : Nat := (t.nodes.get? s).elim 0 (·.weight)

/-- The root of the class of a known source. -/
def root? (t : FactTable) (s : Source) : Option Source :=
  match _h : t.nodes.get? s with
  | none => none
  | some n => if n.parent = s then some s else t.root? n.parent
  termination_by (t.heavier (t.weight s)).length
  decreasing_by
    next hroot =>
    obtain ⟨p, hp, hlt⟩ := (t.rising s n _h).resolve_left hroot
    simp only [weight, _h, hp]
    exact length_heavier_lt hp hlt

/-- The sources on the way to a root, the root among them. -/
def ancestors (t : FactTable) (s : Source) : List Source :=
  match _h : t.nodes.get? s with
  | none => []
  | some n => if n.parent = s then [s] else s :: t.ancestors n.parent
  termination_by (t.heavier (t.weight s)).length
  decreasing_by
    next hroot =>
    obtain ⟨p, hp, hlt⟩ := (t.rising s n _h).resolve_left hroot
    simp only [weight, _h, hp]
    exact length_heavier_lt hp hlt

/-- The facts of the class of a root. -/
def factsAt (t : FactTable) (root : Source) : Facts := (t.nodes.get? root).elim .empty (·.facts)

/-- The facts of the class of a known source. -/
def facts? (t : FactTable) (s : Source) : Option Facts := (t.root? s).map t.factsAt

/-- The sources seen so far. -/
def sources (t : FactTable) : List Source := t.nodes.keys

/-- The number of classes. -/
def classCount (t : FactTable) : Nat := t.nodes.entries.countP fun (s, n) => n.parent = s

/-- Makes a source known, in a class of its own if it is new. -/
def mention (t : FactTable) (s : Source) : FactTable :=
  match h : t.nodes.get? s with
  | some _ => t
  | none => ⟨t.nodes.set s ⟨s, 1, .empty, Nat.one_pos⟩, t.rising.set (by simp [h]) (.inl rfl)⟩

/-- Makes a source the child of a heavier one. -/
def redirect (t : FactTable) (root s : Source) : FactTable :=
  match h : t.nodes.get? s, h' : t.nodes.get? root with
  | some n, some r =>
    if hlt : n.weight < r.weight then
      ⟨t.nodes.set s { n with parent := root },
        t.rising.set (by simp [h]) (.inr ⟨r, h', hlt⟩)⟩
    else t
  | _, _ => t

/-- Makes all sources on the way to a root its children. -/
def compress (t : FactTable) (s : Source) : FactTable :=
  (t.root? s).elim t fun root => (t.ancestors s).foldl (·.redirect root ·) t

/-- Changes the facts of a root. -/
def modifyFacts (t : FactTable) (root : Source) (f : Facts → Facts) : FactTable :=
  match h : t.nodes.get? root with
  | some n =>
    ⟨t.nodes.set root { n with facts := f n.facts }, t.rising.set (by simp [h]) (t.rising root n h)⟩
  | none => t

/-- Adds a fact to the class of a source. -/
def record (t : FactTable) (s : Source) (f : Fact) : FactTable :=
  let t := (t.mention s).compress s
  (t.root? s).elim t fun root => t.modifyFacts root (·.add f)

/-- Adds the weight and the facts of root `b` to those of root `a`. -/
def absorb (t : FactTable) (a b : Source) : FactTable :=
  match h : t.nodes.get? a with
  | some n =>
    if hroot : n.parent = a then
      ⟨t.nodes.set a { n with
          weight := n.weight + t.weight b
          facts := n.facts.union (t.factsAt b)
          positive := Nat.add_pos_left n.positive _ },
        t.rising.set (by simp [h]) (.inl hroot)⟩
    else t
  | none => t

/-- Lets the tree of root `b` join the tree of root `a`, and moves its facts. -/
def join (t : FactTable) (a b : Source) : FactTable :=
  ((t.absorb a b).redirect a b).modifyFacts b fun _ => .empty

/-- Joins the classes of two sources; the root of the smaller one becomes a
    child of the other, the second one if they are equally large. -/
def unitePair (t : FactTable) (s s' : Source) : FactTable :=
  let t := (((t.mention s).mention s').compress s).compress s'
  match t.root? s, t.root? s' with
  | some a, some b =>
    if a = b then t else if t.weight b ≤ t.weight a then t.join a b else t.join b a
  | _, _ => t

/-- Joins the classes of all sources of a list. -/
def unite (t : FactTable) : List Source → FactTable
  | [] => t
  | s :: rest => rest.foldl (·.unitePair s ·) (t.mention s)

end FactTable

/-- One step on a fact table. -/
inductive FactUpdate where
  | record (s : Source) (f : Fact)
  | unite (sources : List Source)
  deriving DecidableEq

def FactTable.update (t : FactTable) : FactUpdate → FactTable
  | .record s f => t.record s f
  | .unite sources => t.unite sources

def FactTable.updateAll (t : FactTable) (us : List FactUpdate) : FactTable := us.foldl update t

end ConstRestore
