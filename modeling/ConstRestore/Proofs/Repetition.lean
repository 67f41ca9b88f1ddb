/-
  Restoring what was restored.

  Where loads of static fields take the place of literals (`Subject.Plain`), a
  second restoration of a method replaces just the literals that these
  fields draw into a group (`Subject.DrawnInto`).  Where other code takes
  their place it replaces nothing if no group has anything for the literals
  that are left (`Subject.Spent`).  `restoreClass_twice` says so for classes.  In
  general code in place of a literal has literals of its own, which are replaced
  the next time.
-/
import ConstRestore.Proofs.Interleaving
import ConstRestore.Proofs.Literals
import ConstRestore.Proofs.Loaded

namespace ConstRestore

/-! ## Plain rewrites -/

theorem DataType.eq_of_stackKind {t u : DataType} (ht : t.promote = t) (hu : u.promote = u)
    (hkind : t.stackKind = u.stackKind) (hprimitive : t.isPrimitive) : t = u := by
  revert ht hu hkind hprimitive
  cases t <;> cases u <;> decide

/-- The load of a static field of its type takes the place of the literal. -/
def Rewrite.IsLoad (w : Rewrite) (code : List Instr) : Prop :=
  ∃ v site, PushesAt code w.index v ∧ w.sub = ⟨none, [.field .getstatic site]⟩ ∧
    site.descriptor = v.dataType.descriptor

theorem forall₂_flatMap {α β : Type} {R : α → β → Prop} {f : α → List β} {l : List α}
    (h : ∀ a ∈ l, ∃ b, f a = [b] ∧ R a b) : List.Forall₂ R l (l.flatMap f) := by
  induction l with
  | nil => exact .nil
  | cons a l ih =>
    obtain ⟨⟨b, hb, hab⟩, hl⟩ := List.forall_mem_cons.1 h
    rw [List.flatMap_cons, hb]
    exact .cons hab (ih hl)

namespace Subject

variable {s : Subject} {a : Solution} {index : Nat} {i : Instr} {w : Rewrite}

/-- The subject after its restoration. -/
def restored (s : Subject) (a : Solution) : Subject :=
  s.withCode (Rewrite.applyAll (s.rewrites a) s.method.code)

/-- Loads take the place of literals, and of strings only if there are no class literals, or the
    other way round. -/
structure Plain (s : Subject) (a : Solution) : Prop where
  loads : ∀ w ∈ s.rewrites a, w.IsLoad s.method.code
  types : ∀ w ∈ s.rewrites a, ∀ v, PushesAt s.method.code w.index v →
    ∀ k v', PushesAt s.method.code k v' →
      v.dataType.isPrimitive ∨ v'.dataType.isPrimitive ∨ v.dataType = v'.dataType

namespace Plain

variable (h : s.Plain a)

include h

theorem instead_of_stays (hi : s.method.code[index]? = some i)
    (hstays : s.rewriteAt? a index i = none) : Rewrite.instead (s.rewrites a) index i = [i] := by
  refine Rewrite.instead_self fun w hw hclaim => ?_
  rcases hclaim with rfl | hremoves
  · cases (rewriteAt?_of_mem_rewrites hw hi).symm.trans hstays
  · obtain ⟨v, site, -, hsub, -⟩ := h.loads w hw
    obtain ⟨check, pop, hguarded, -⟩ := Rewrite.removes_iff.1 hremoves
    cases (congrArg Substitution.nullCheck hsub).symm.trans hguarded

/-- Place by place, an instruction stays or becomes a load. -/
theorem forall₂_instead :
    List.Forall₂ (fun c i' => Rewrite.instead (s.rewrites a) c.2 c.1 = [i'] ∧ c.1.Becomes i')
      s.method.code.zipIdx (s.restored a).method.code := by
  refine forall₂_flatMap fun c hc => ?_
  have hi := List.mem_zipIdx_iff_getElem?.1 hc
  cases hw : s.rewriteAt? a c.2 c.1 with
  | none => exact ⟨c.1, h.instead_of_stays hi hw, h.instead_of_stays hi hw, .same _⟩
  | some w =>
    obtain ⟨hmem, hindex⟩ := mem_rewrites_of_rewriteAt? hi hw
    obtain ⟨v, site, ⟨i, hi', hv⟩, hsub, hsite⟩ := h.loads w hmem
    rw [hindex] at hi'
    obtain rfl := Option.some.inj (hi.symm.trans hi')
    have hinstead := instead_of_rewriteAt? hi hw
    rw [hsub] at hinstead
    exact ⟨_, hinstead, hinstead, .load hv hsite⟩

theorem codeBecomes : CodeBecomes s.method.code (s.restored a).method.code := by
  have hcode := h.forall₂_instead.imp fun _ _ h => h.2
  rw [← List.forall₂_map_left_iff (f := Prod.fst), List.zipIdx_map_fst] at hcode
  exact hcode

theorem getElem?_restored (hi : s.method.code[index]? = some i) :
    ∃ i', (s.restored a).method.code[index]? = some i' ∧
      Rewrite.instead (s.rewrites a) index i = [i'] := by
  have hi : s.method.code.zipIdx[index]? = some (i, index) := by simp [hi]
  obtain ⟨i', hi', hinstead, -⟩ := forall₂_getElem? h.forall₂_instead hi
  exact ⟨i', hi', hinstead⟩

/-- What stands in place of a literal as a load is its rewrite. -/
theorem exists_rewrite {k : Nat} {v : Value} {site : FieldSite}
    (hload : LoadedAt s.method.code (s.restored a).method.code k v site) :
    ∃ w ∈ s.rewrites a, w.index = k ∧ w.sub.code = [.field .getstatic site] ∧
      site.descriptor = v.dataType.descriptor := by
  obtain ⟨i, hi, hv⟩ := hload.pushes
  obtain ⟨i', hi', hinstead⟩ := h.getElem?_restored hi
  obtain rfl := Option.some.inj (hload.loads.symm.trans hi')
  cases hw : s.rewriteAt? a k i with
  | none =>
    obtain rfl := List.singleton_inj.1 ((h.instead_of_stays hi hw).symm.trans hinstead)
    cases hv
  | some w =>
    obtain ⟨hmem, rfl⟩ := mem_rewrites_of_rewriteAt? hi hw
    have hsub := (instead_of_rewriteAt? hi hw).symm.trans hinstead
    obtain ⟨v', site', ⟨i', hi', hv'⟩, hsub', hsite⟩ := h.loads w hmem
    obtain rfl := Option.some.inj (hi.symm.trans hi')
    obtain rfl := Option.some.inj (hv.symm.trans hv')
    rw [hsub'] at hsub
    obtain ⟨-, rfl⟩ := Instr.field.inj (List.singleton_inj.1 hsub)
    exact ⟨w, hmem, rfl, by rw [hsub'], hsite⟩

theorem exists_loadedAt (hw : w ∈ s.rewrites a) {site : FieldSite}
    (hsub : w.sub.code = [.field .getstatic site]) :
    ∃ v, LoadedAt s.method.code (s.restored a).method.code w.index v site := by
  obtain ⟨v, -, ⟨i, hi, hv⟩, -⟩ := h.loads w hw
  obtain ⟨i', hi', hinstead⟩ := h.getElem?_restored hi
  have hinstead' := instead_of_rewriteAt? hi (rewriteAt?_of_mem_rewrites hw hi)
  obtain rfl := List.singleton_inj.1 (hsub.symm.trans (hinstead'.symm.trans hinstead))
  exact ⟨v, ⟨i, hi, hv⟩, hi'⟩

/-- The restored method is analysed like the method before. -/
theorem repeated (hsolve : solve s.registry s.config.stepLimit s.owner s.method = .ok a) :
    ∃ a', Repeated s (s.restored a).method.code a a' := by
  obtain ⟨a', ha', hframes, hfacts⟩ := solve_becomes h.codeBecomes hsolve
  refine ⟨a', h.codeBecomes, hsolve, ha', hframes, hfacts, fun k v site hload => ?_⟩
  obtain ⟨w, hw, rfl, -, hsite⟩ := h.exists_rewrite hload
  exact ⟨(sound_of_mem_rewrites hw).reachable, hsite⟩

end Plain

/-- A static field that is bound to a group takes the place of a literal in the class of a source. -/
def Attracts (s : Subject) (a : Solution) (x : Source) (g : String) : Prop :=
  ∃ w ∈ s.rewrites a, ∃ site, w.sub.code = [.field .getstatic site] ∧
    a.facts.Same x (.instruction w.index) ∧ s.store.bindings.fieldGroup site.member = some g

/-- A literal without a group stays; the fields in place of others of its class are bound to one
    group, and this group has something for it. -/
structure DrawnInto (s : Subject) (a : Solution) (index : Nat) (i : Instr) (g : String) : Prop where
  at_ : s.method.code[index]? = some i
  stays : s.rewriteAt? a index i = none
  unclaimed : ∃ value root f, s.literalAt? a index i = some (value, root, f) ∧
    s.groupChoice f = .unclaimed ∧ (s.groupVerdict a index value f (.named g)).substitution?.isSome
  attracts : s.Attracts a (.instruction index) g
  only : ∀ g', s.Attracts a (.instruction index) g' → g' = g

theorem Plain.attracts_iff (h : s.Plain a) {x : Source} {g : String} :
    Repeated.Attracts s (s.restored a).method.code a x g ↔ s.Attracts a x g := by
  constructor
  · rintro ⟨k, v, site, hload, hsame, hg⟩
    obtain ⟨w, hw, rfl, hsub, -⟩ := h.exists_rewrite hload
    exact ⟨w, hw, site, hsub, hsame, hg⟩
  · rintro ⟨w, hw, site, hsub, hsame, hg⟩
    obtain ⟨v, hload⟩ := h.exists_loadedAt hw hsub
    exact ⟨w.index, v, site, hload, hsame, hg⟩

section Again

variable (h : s.Plain a) {a' : Solution} (hagain : Repeated s (s.restored a).method.code a a')

include h hagain

theorem Plain.isSome_rewriteAt?_iff (hi : s.method.code[index]? = some i)
    (hstays : s.rewriteAt? a index i = none) :
    ((s.restored a).rewriteAt? a' index i).isSome ↔ ∃ g, s.DrawnInto a index i g := by
  have htypes (k : Nat) (v : Value) (site : FieldSite)
      (hload : LoadedAt s.method.code (s.restored a).method.code k v site) (value : Value)
      (hvalue : i.literal? = some value) (hkind : v.dataType.stackKind = value.dataType.stackKind) :
      v.dataType = value.dataType := by
    obtain ⟨w, hw, rfl, -⟩ := h.exists_rewrite hload
    obtain ⟨i', -, hv⟩ := hload.pushes
    have hpromote := Instr.promote_dataType_of_literal? hv
    have hpromote' := Instr.promote_dataType_of_literal? hvalue
    rcases h.types w hw v hload.pushes index value ⟨i, hi, hvalue⟩ with hprimitive | hprimitive | heq
    · exact DataType.eq_of_stackKind hpromote hpromote' hkind hprimitive
    · exact (DataType.eq_of_stackKind hpromote' hpromote hkind.symm hprimitive).symm
    · exact heq
  refine (hagain.isSome_rewriteAt?_iff hstays htypes).trans ?_
  simp only [h.attracts_iff]
  constructor
  · rintro ⟨value, root, f, g, hat, hchoice, hg, honly, hsome⟩
    exact ⟨g, hi, hstays, ⟨value, root, f, hat, hchoice, hsome⟩, hg, honly⟩
  · rintro ⟨g, -, -, ⟨value, root, f, hat, hchoice, hsome⟩, hg, honly⟩
    exact ⟨value, root, f, g, hat, hchoice, hg, honly, hsome⟩

/-- Of the restored method nothing is rewritten but literals that were drawn into a group. -/
theorem Plain.rewrites_restored_eq_nil_iff :
    (s.restored a).rewrites a' = [] ↔ ∀ index i g, ¬s.DrawnInto a index i g := by
  constructor
  · intro hnil index i g hdrawn
    obtain ⟨i', hi', hinstead⟩ := h.getElem?_restored hdrawn.at_
    obtain rfl := List.singleton_inj.1
      ((h.instead_of_stays hdrawn.at_ hdrawn.stays).symm.trans hinstead)
    obtain ⟨w, hw⟩ := Option.isSome_iff_exists.1
      ((h.isSome_rewriteAt?_iff hagain hdrawn.at_ hdrawn.stays).2 ⟨g, hdrawn⟩)
    obtain ⟨hmem, -⟩ := mem_rewrites_of_rewriteAt? hi' hw
    rw [hnil] at hmem
    cases hmem
  · intro hnone
    refine List.eq_nil_iff_forall_not_mem.2 fun w hw => ?_
    obtain ⟨i', hi', hw⟩ := mem_rewrites.1 hw
    obtain ⟨i, hi, -⟩ := forall₂_getElem? h.codeBecomes.flip hi'
    obtain ⟨i'', hi'', hinstead⟩ := h.getElem?_restored hi
    obtain rfl := Option.some.inj (hi'.symm.trans hi'')
    cases hw₀ : s.rewriteAt? a w.index i with
    | none =>
      obtain rfl := List.singleton_inj.1 ((h.instead_of_stays hi hw₀).symm.trans hinstead)
      obtain ⟨g, hdrawn⟩ := (h.isSome_rewriteAt?_iff hagain hi hw₀).1 (by rw [hw]; rfl)
      exact hnone w.index i g hdrawn
    | some w₀ =>
      obtain ⟨-, site, -, hsub, -⟩ := h.loads w₀ (mem_rewrites_of_rewriteAt? hi hw₀).1
      rw [instead_of_rewriteAt? hi hw₀, hsub] at hinstead
      obtain rfl := List.singleton_inj.1 hinstead
      obtain ⟨-, value, root, f, -, hat, -⟩ := rewriteAt?_eq_some hw
      cases (literalAt?_eq_some hat).1

end Again

/-! ## Methods -/

/-- The literals of the restored code are operands of complements or nothing that any group has
    something for. -/
def Spent (s : Subject) (a : Solution) : Prop :=
  ∀ k v, PushesAt (s.restored a).method.code k v →
    isComplementOperand (s.restored a).method.code k v ∨ ∀ key f, s.standIn? key v f = none

theorem Spent.rewrites_restored_eq_nil (h : s.Spent a) (a' : Solution) :
    (s.restored a).rewrites a' = [] := by
  refine List.eq_nil_iff_forall_not_mem.2 fun w hw => ?_
  obtain ⟨i, hi, hw⟩ := mem_rewrites.1 hw
  obtain ⟨-, value, root, f, standIn, hat, hverdict⟩ := rewriteAt?_eq_some hw
  obtain ⟨hvalue, -, -, hoperand⟩ := exists_literalAt?_iff.1 ⟨root, f, hat⟩
  obtain ⟨key, -, hstandIn, -⟩ := verdict_eq_replaced hverdict
  rcases h w.index value ⟨i, hi, hvalue⟩ with hcomplement | hnone
  · cases hoperand.symm.trans hcomplement
  · cases (hnone key f).symm.trans hstandIn

/-- A restoration that replaces nothing leaves the method as it is. -/
theorem result_of_replaced_eq_zero {out : Restored Method} (h : s.restore = .ok out)
    (hzero : out.stats.replaced = 0) : out.result = s.method := by
  cases hs : solve s.registry s.config.stepLimit s.owner s.method with
  | error e =>
    obtain ⟨out', hout', hresult, -⟩ := restore_of_error hs
    obtain rfl := Except.ok.inj (h.symm.trans hout')
    exact hresult
  | ok a =>
    obtain ⟨out', hout', hresult, hcount⟩ := restore_of_ok hs
    obtain rfl := Except.ok.inj (h.symm.trans hout')
    rw [hresult, List.eq_nil_of_length_eq_zero (hcount.symm.trans hzero), Rewrite.applyAll_nil]

theorem replaced_restored_iff
    (hsolve : solve s.registry s.config.stepLimit s.owner s.method = .ok a)
    (h : s.Spent a ∨ s.Plain a) {again : Restored Method}
    (hagain : (s.restored a).restore = .ok again) :
    again.stats.replaced = 0 ↔ s.Spent a ∨ ∀ index i g, ¬s.DrawnInto a index i g := by
  by_cases hspent : s.Spent a
  · refine iff_of_true ?_ (.inl hspent)
    cases hs : solve (s.restored a).registry (s.restored a).config.stepLimit (s.restored a).owner
        (s.restored a).method with
    | error e =>
      obtain ⟨again', hagain', -, hzero⟩ := restore_of_error hs
      obtain rfl := Except.ok.inj (hagain.symm.trans hagain')
      exact hzero
    | ok a' =>
      obtain ⟨again', hagain', -, hcount⟩ := restore_of_ok hs
      obtain rfl := Except.ok.inj (hagain.symm.trans hagain')
      rw [hcount, hspent.rewrites_restored_eq_nil a', List.length_nil]
  · have hplain := h.resolve_left hspent
    obtain ⟨a', hrepeated⟩ := hplain.repeated hsolve
    obtain ⟨again', hagain', -, hcount⟩ := restore_of_ok hrepeated.after
    obtain rfl := Except.ok.inj (hagain.symm.trans hagain')
    rw [or_iff_right hspent, ← hplain.rewrites_restored_eq_nil_iff hrepeated, ← List.length_eq_zero_iff]
    exact iff_of_eq (congrArg (· = 0) hcount)

/-- The restored method is spent, or its fields draw no literal into a group. -/
def Final (s : Subject) : Prop :=
  ∀ a, solve s.registry s.config.stepLimit s.owner s.method = .ok a →
    s.Spent a ∨ ∀ index i g, ¬s.DrawnInto a index i g

theorem replaced_again_iff
    (h : ∀ a, solve s.registry s.config.stepLimit s.owner s.method = .ok a → s.Spent a ∨ s.Plain a)
    {out again : Restored Method} (hout : s.restore = .ok out)
    (hagain : Subject.restore { s with method := out.result } = .ok again) :
    again.stats.replaced = 0 ↔ s.Final := by
  unfold Final
  cases hs : solve s.registry s.config.stepLimit s.owner s.method with
  | error e =>
    obtain ⟨out', hout', hresult, hzero⟩ := restore_of_error hs
    obtain rfl := Except.ok.inj (hout.symm.trans hout')
    rw [hresult] at hagain
    obtain rfl := Except.ok.inj (hout.symm.trans hagain)
    exact iff_of_true hzero nofun
  | ok a =>
    obtain ⟨out', hout', hresult, -⟩ := restore_of_ok hs
    obtain rfl := Except.ok.inj (hout.symm.trans hout')
    rw [hresult] at hagain
    simpa using replaced_restored_iff hs (h a hs) hagain

end Subject

/-! ## Classes -/

theorem forall₂_eq_map {ε α β : Type} {f : α → Except ε β} {g : α → β} (hg : ∀ a, f a = .ok (g a))
    {l : List α} {l' : List β} (h : List.Forall₂ (fun a b => f a = .ok b) l l') : l' = l.map g := by
  induction h with
  | nil => rfl
  | cons hab _ ih =>
    rw [List.map_cons, ← ih, Except.ok.inj ((hg _).symm.trans hab)]

/-- The subject of a method of a class. -/
def ClassFile.subject (c : ClassFile) (r : Registry) (s : Store) (config : Config) (m : Method) :
    Subject := ⟨r, s, config, c.name, c.majorVersion, m⟩

/-- **When a second restoration is a no-op.**  If in every method that is analysed loads of static
    fields take the place of literals, or no group has anything for the literals that are left, then
    restoring the restored class replaces nothing just if these fields draw no literal into a
    group, and in that case it gives the class back as it is. -/
theorem restoreClass_twice {r : Registry} {s : Store} {config : Config} {c : ClassFile}
    (h : ∀ m ∈ c.methods, ∀ a, solve r config.stepLimit c.name m = .ok a →
      (c.subject r s config m).Spent a ∨ (c.subject r s config m).Plain a) :
    ∃ out again, restoreClass r s config c = .ok out ∧
      restoreClass r s config out.result = .ok again ∧
      (again.stats.replaced = 0 ↔ ∀ m ∈ c.methods, (c.subject r s config m).Final) ∧
      (again.stats.replaced = 0 → again.result = out.result) := by
  choose first hfirst using exists_restoreMethod r s config c
  obtain ⟨out, hout, outs, houts, hresult, -⟩ := exists_restoredAlone r s config c
  obtain rfl := forall₂_eq_map hfirst houts
  have hclass : restoreMethod r s config out.result = restoreMethod r s config c := by
    rw [hresult]
    rfl
  obtain ⟨again, hagain, outs', houts', hresult', hstats⟩ := exists_restoredAlone r s config out.result
  rw [hclass] at houts'
  obtain rfl := forall₂_eq_map hfirst houts'
  have hmethods : out.result.methods = c.methods.map fun m => (first m).result := by
    rw [hresult, List.map_map]
    rfl
  have hzero : again.stats.replaced = 0 ↔
      ∀ m ∈ c.methods, (first (first m).result).stats.replaced = 0 := by
    rw [hstats, hmethods]
    simp [Stats.total, List.sum_eq_zero_iff]
  refine ⟨out, again, hout, hagain, hzero.trans ?_, fun hnone => ?_⟩
  · refine forall₂_congr fun m hm => ?_
    exact Subject.replaced_again_iff (h m hm) (hfirst m) (hfirst _)
  · have hself : (out.result.methods.map first).map (·.result) = out.result.methods := by
      rw [hmethods, List.map_map, List.map_map]
      refine List.map_congr_left fun m hm => ?_
      exact Subject.result_of_replaced_eq_zero (hfirst _) (hzero.1 hnone m hm)
    rw [hresult', hself]

/-- Constants `p.K.ONE = 1` and `p.K.BASE = 8`. -/
def bitRegistry : Registry :=
  (ClassRegistry.empty.addConstant "p/K" "ONE" ⟨.int, .int 1, true⟩).addConstant "p/K" "BASE"
    ⟨.int, .int 8, true⟩

def bitField (name : String) : Expr := .field ⟨"p/K", some name, none, true⟩

/-- A group for a parameter that maps 1 to `ONE` and 9 to `BASE | 1`. -/
def bitStore : Store where
  groups := (Store.empty.build bitRegistry [.declare "mode" .int false,
    .insertExpr (.named "mode") .global false (bitField "ONE"),
    .insertExpr (.named "mode") .global false
      (.binary .or (bitField "BASE") (.literal (.int 1)))]).groups
  bindings := .build bitRegistry [.declareParam (callOf "set" "(I)V").member 0 "mode"]

/-- A class with one method, which returns after some code. -/
def classOf (body : List Instr) : ClassFile where
  majorVersion := 52
  access := 0
  name := "p/A"
  superclass := some objectClass
  interfaces := []
  fields := []
  methods := [{
    access := Access.static, name := "f", descriptor := "()V", tryBlocks := [], maxLocals := 0,
    maxStack := 2, code := body ++ [.simple (.return_ none)] }]

/-- Code that passes a literal to a call. -/
def passTo (name : String) (literal : Int32) : List Instr :=
  [.push (.int literal), .method .invokestatic (callOf name "(I)V")]

/-- Two equal literals, of which one goes to the parameter of the group. -/
def twoOnes : ClassFile := classOf (passTo "set" 1 ++ passTo "skip" 1)

def loadOfOne : Rewrite := ⟨0, ⟨none, [.field .getstatic ⟨"p/K", "ONE", "I"⟩]⟩⟩

theorem restoreClass_twice_ones : ∃ out again,
    restoreClass bitRegistry bitStore {} twoOnes = .ok out ∧
    restoreClass bitRegistry bitStore {} out.result = .ok again ∧
    again.stats.replaced = 0 ∧ again.result = out.result := by
  have hrewrites : twoOnes.methods.map (fun m => (solve bitRegistry defaultStepLimit "p/A" m).map
      (twoOnes.subject bitRegistry bitStore {} m).rewrites) = [.ok [loadOfOne]] := by cbv
  have hplain : ∀ m ∈ twoOnes.methods, ∀ a, solve bitRegistry defaultStepLimit "p/A" m = .ok a →
      (twoOnes.subject bitRegistry bitStore {} m).Plain a := by
    intro m hm a ha
    have hrewrites := List.eq_of_mem_singleton (hrewrites ▸ List.mem_map_of_mem hm)
    rw [ha] at hrewrites
    have hone : ∀ w ∈ (twoOnes.subject bitRegistry bitStore {} m).rewrites a, w = loadOfOne := by
      intro w hw
      rw [Except.ok.inj hrewrites] at hw
      exact List.eq_of_mem_singleton hw
    obtain rfl := List.eq_of_mem_singleton hm
    refine ⟨fun w hw => ?_, fun w hw v hv k v' hv' => .inl ?_⟩
    · rw [hone w hw]
      exact ⟨.int 1, ⟨"p/K", "ONE", "I"⟩, ⟨_, rfl, rfl⟩, rfl, rfl⟩
    · rw [hone w hw] at hv
      obtain ⟨i, hi, hv⟩ := hv
      obtain rfl := Option.some.inj hi
      obtain rfl := Option.some.inj hv
      rfl
  obtain ⟨out, again, hout, hagain, hzero, hsame⟩ :=
    restoreClass_twice fun m hm a ha => .inr (hplain m hm a ha)
  -- no field is bound, so none draws the other literal into a group
  have hfinal : ∀ m ∈ twoOnes.methods, (twoOnes.subject bitRegistry bitStore {} m).Final := by
    intro m hm a ha
    refine .inr fun index i g hdrawn => ?_
    obtain ⟨w, -, site, -, -, hg⟩ := hdrawn.attracts
    cases hg
  exact ⟨out, again, hout, hagain, hzero.2 hfinal, hsame (hzero.2 hfinal)⟩

/-- The operand of a mapped expression is itself a literal of the group: 9 becomes `BASE | 1`, and
    that `BASE | ONE`. -/
theorem operand_is_replaced_again : ∃ out again,
    restoreClass bitRegistry bitStore {} (classOf (passTo "set" 9)) = .ok out ∧
    restoreClass bitRegistry bitStore {} out.result = .ok again ∧
    again.stats.replaced = 1 ∧ again.result ≠ out.result := by
  have hrun : (restoreClass bitRegistry bitStore {} (classOf (passTo "set" 9)) >>= fun out =>
      (restoreClass bitRegistry bitStore {} out.result).map fun again => (again.stats.replaced,
        out.result.methods.map (·.code[1]?), again.result.methods.map (·.code[1]?))) =
      .ok (1, [some (.push (.int 1))], [some (.field .getstatic ⟨"p/K", "ONE", "I"⟩)]) := by cbv
  obtain ⟨out, hout, hrun⟩ := bind_eq_ok.1 hrun
  obtain ⟨again, hagain, hrun⟩ := map_eq_ok.1 hrun
  obtain ⟨hreplaced, hcode⟩ := Prod.mk.inj hrun
  obtain ⟨hcode, hcode'⟩ := Prod.mk.inj hcode
  refine ⟨out, again, hout, hagain, hreplaced, fun heq => ?_⟩
  rw [heq, hcode] at hcode'
  cases hcode'

/-- A default group maps 1 to a field that is bound to another group, which maps 8. -/
def drawingStore : Store where
  groups := (Store.empty.build bitRegistry [.declareDefault .int, .declare "mode" .int false,
    .insertExpr (.default .int) .global false (bitField "ONE"),
    .insertExpr (.named "mode") .global false (bitField "BASE")]).groups
  bindings := .build bitRegistry [.declareField ⟨"p/K", "ONE", "I"⟩ "mode"]

/-- A value that is 1 or 8: once `ONE` is loaded, the 8 belongs to the group of that field. -/
example : (restoreClass bitRegistry drawingStore {} (classOf
      [.method .invokestatic (callOf "get" "()I"), .jump (.ifInt .eq) 0, .push (.int 1),
        .jump .goto 1, .label 0, .push (.int 8), .label 1,
        .method .invokestatic (callOf "skip" "(I)V")]) >>= fun out =>
    (restoreClass bitRegistry drawingStore {} out.result).map fun again =>
      (out.stats.replaced, again.stats.replaced)) = .ok (1, 1) := by
  cbv

end ConstRestore
