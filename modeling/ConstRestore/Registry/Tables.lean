/-
  A registry in memory: what is known about classes, in two tables.

  Only what is in the tables leads anywhere, so its searches end whatever it
  holds (`ClassRegistry.registry`).
-/
import ConstRestore.Registry
import ConstRestore.Table

namespace ConstRestore

structure ClassRegistry where
  classes : Table String ClassInfo
  /-- The constants of a class by field name. -/
  constants : Table String (Table String Constant)

namespace ClassRegistry

def empty : ClassRegistry := ⟨∅, ∅⟩

def addInfo (t : ClassRegistry) (c : ClassInfo) : ClassRegistry :=
  { t with classes := t.classes.set c.name c }

def addConstant (t : ClassRegistry) (owner name : String) (c : Constant) : ClassRegistry :=
  { t with constants := t.constants.update owner ∅ (·.set name c) }

def backend (t : ClassRegistry) : Backend where
  constant? owner name := do (← t.constants.get? owner).get? name
  constants? owner := (t.constants.get? owner).map fun cs =>
    cs.entries.mergeSort fun a b => decide (a.1 ≤ b.1)
  info? name := t.classes.get? name

/-- What the tables say. -/
def registry (t : ClassRegistry) : Registry where
  toBackend := t.backend
  declared owner all h name c hc := by
    obtain ⟨cs, hcs, rfl⟩ := Option.map_eq_some_iff.1 h
    have hmem : (name, c) ∈ cs.entries := (List.mergeSort_perm _ _).mem_iff.1 hc
    simp [backend, hcs, Table.mem_entries_iff.1 hmem]
  exists_above := Backend.exists_closed (fun _ _ => Table.mem_keys_of_get?) _
  exists_around := Backend.exists_closed (fun _ _ => Table.mem_keys_of_get?) _

instance : Coe ClassRegistry Registry := ⟨registry⟩

variable {t : ClassRegistry} {owner name : String}

@[simp] theorem info?_empty : empty.registry.info? name = none := rfl

@[simp] theorem constant?_empty : empty.registry.constant? owner name = none := rfl

@[simp] theorem info?_addInfo (c : ClassInfo) : (t.addInfo c).registry.info? name =
    if name = c.name then some c else t.registry.info? name :=
  Table.get?_set ..

@[simp] theorem constant?_addInfo (c : ClassInfo) :
    (t.addInfo c).registry.constant? owner name = t.registry.constant? owner name := rfl

@[simp] theorem info?_addConstant (owner' name' : String) (c : Constant) :
    (t.addConstant owner' name' c).registry.info? name = t.registry.info? name := rfl

@[simp] theorem constant?_addConstant (owner' name' : String) (c : Constant) :
    (t.addConstant owner' name' c).registry.constant? owner name =
      if owner = owner' ∧ name = name' then some c else t.registry.constant? owner name := by
  simp only [registry, backend, addConstant, Table.update, Table.get?_set]
  by_cases ho : owner = owner'
  · subst ho
    by_cases hn : name = name'
    · simp [hn, Table.get?_set]
    · cases h : t.constants.get? owner with
      | none => simp [Table.get?_set, hn]; rfl
      | some cs => simp [Table.get?_set, hn]
  · simp [ho]

instance (P : String → ClassInfo → Prop) [∀ name c, Decidable (P name c)] :
    Decidable (∀ name c, t.registry.info? name = some c → P name c) :=
  decidable_of_iff (∀ e ∈ t.classes.entries, P e.1 e.2)
    ⟨fun h name c hc => h (name, c) (Table.mem_entries_iff.2 hc),
      fun h e he => h e.1 e.2 (Table.mem_entries_iff.1 he)⟩

end ClassRegistry

/-- A registry that knows no class. -/
abbrev Registry.empty : Registry := ClassRegistry.empty

end ConstRestore
