/-
  Finite maps that keep the order in which their keys were first set.

  `get?_set` says that a key reads as it was last set and that no other key
  is touched; `mem_entries_iff` that the entries are what can be read.
-/
namespace ConstRestore

/-- A finite map as a list of entries with different keys. -/
structure Table (κ α : Type) where
  entries : List (κ × α)
  distinct : (entries.map (·.1)).Nodup

namespace Table

variable {κ α : Type} [BEq κ]

def empty : Table κ α := ⟨[], List.nodup_nil⟩

instance : EmptyCollection (Table κ α) := ⟨empty⟩

def get? (t : Table κ α) (k : κ) : Option α := t.entries.lookup k

def contains (t : Table κ α) (k : κ) : Bool := (t.get? k).isSome

/-- Sets a key, in its place if it is there and at the end otherwise. -/
def setEntries (k : κ) (a : α) : List (κ × α) → List (κ × α)
  | [] => [(k, a)]
  | (k', b) :: es => if k == k' then (k, a) :: es else (k', b) :: setEntries k a es

theorem mem_keys_setEntries [LawfulBEq κ] {k k' : κ} {a : α} {es : List (κ × α)}
    (h : k' ∈ (setEntries k a es).map (·.1)) : k' = k ∨ k' ∈ es.map (·.1) := by
  fun_induction setEntries k a es with
  | case1 => simpa using h
  | case2 k₀ b es hk => exact .inr (by simpa [← eq_of_beq hk] using h)
  | case3 k₀ b es hk ih =>
    rcases List.mem_cons.1 h with rfl | h
    · exact .inr List.mem_cons_self
    · exact (ih h).imp_right (List.mem_cons_of_mem _)

theorem nodup_setEntries [LawfulBEq κ] {k : κ} {a : α} {es : List (κ × α)}
    (h : (es.map (·.1)).Nodup) : ((setEntries k a es).map (·.1)).Nodup := by
  fun_induction setEntries k a es with
  | case1 => simp
  | case2 k₀ b es hk => simpa [← eq_of_beq hk] using h
  | case3 k₀ b es hk ih =>
    have ⟨hk₀, hes⟩ := List.nodup_cons.1 h
    refine List.nodup_cons.2 ⟨fun hmem => ?_, ih hes⟩
    rcases mem_keys_setEntries hmem with rfl | hmem
    · exact hk BEq.rfl
    · exact hk₀ hmem

def set [LawfulBEq κ] (t : Table κ α) (k : κ) (a : α) : Table κ α :=
  ⟨setEntries k a t.entries, nodup_setEntries t.distinct⟩

def keys (t : Table κ α) : List κ := t.entries.map (·.1)

def size (t : Table κ α) : Nat := t.entries.length

def isEmpty (t : Table κ α) : Bool := t.entries.isEmpty

/-- Changes the value of a key, which is `initial` if the key is not there. -/
def update [LawfulBEq κ] (t : Table κ α) (k : κ) (initial : α) (f : α → α) : Table κ α :=
  t.set k (f ((t.get? k).getD initial))

@[simp] theorem get?_empty (k : κ) : (empty : Table κ α).get? k = none := rfl

theorem lookup_setEntries [LawfulBEq κ] [DecidableEq κ] (k k' : κ) (a : α) (es : List (κ × α)) :
    (setEntries k a es).lookup k' = if k' = k then some a else es.lookup k' := by
  fun_induction setEntries k a es with
  | case1 => by_cases h : k' = k <;> simp [List.lookup_cons, h, beq_eq_false_iff_ne.2]
  | case2 k₀ b es hk =>
    obtain rfl := eq_of_beq hk
    by_cases h : k' = k <;> simp [List.lookup_cons, h, beq_eq_false_iff_ne.2]
  | case3 k₀ b es hk ih =>
    by_cases h : k' = k₀
    · subst h
      have hne : ¬k' = k := fun e => hk (by simp [e])
      simp [hne]
    · simp [List.lookup_cons, beq_eq_false_iff_ne.2 h, ih]

theorem get?_set [LawfulBEq κ] [DecidableEq κ] (t : Table κ α) (k k' : κ) (a : α) :
    (t.set k a).get? k' = if k' = k then some a else t.get? k' :=
  lookup_setEntries k k' a t.entries

theorem mem_keys_of_get? [LawfulBEq κ] {t : Table κ α} {k : κ} {a : α} (h : t.get? k = some a) :
    k ∈ t.keys := by
  obtain ⟨l₁, l₂, he, -⟩ := List.lookup_eq_some_iff.1 h
  simp [keys, he]

theorem mem_entries_iff [LawfulBEq κ] {t : Table κ α} {k : κ} {a : α} :
    (k, a) ∈ t.entries ↔ t.get? k = some a := by
  obtain ⟨es, hes⟩ := t
  simp only [get?]
  constructor
  · intro h
    obtain ⟨l₁, l₂, rfl⟩ := List.append_of_mem h
    refine List.lookup_eq_some_iff.2 ⟨l₁, l₂, rfl, fun p hp => ?_⟩
    simp only [List.map_append, List.map_cons, List.nodup_append] at hes
    have hne := hes.2.2 p.1 (List.mem_map_of_mem hp) k List.mem_cons_self
    simpa using fun e => hne e.symm
  · intro h
    obtain ⟨l₁, l₂, rfl, -⟩ := List.lookup_eq_some_iff.1 h
    simp

end Table

end ConstRestore
