/-
  What is decided about a method with loads in place of literals.

  `Repeated` is what two analyses have in common, of a method and of the same
  method with loads in place of some literals.  A group has the same verdict
  on a literal that is still there (`Subject.groupVerdict_becomes`), but the
  group may be another: the destinations of a class are those that it had and
  the fields that are loaded in it now (`Repeated.destined_iff`).  So a literal
  that stayed is replaced later only if it had no group and these fields are
  bound to one (`Repeated.isSome_rewriteAt?_iff`).
-/
import ConstRestore.Proofs.Agreement
import ConstRestore.Proofs.Lockstep
import ConstRestore.Proofs.Rewriting

namespace ConstRestore

/-! ## The code around a literal -/

namespace Instr

variable {i i' : Instr}

theorem Becomes.isLine (h : i.Becomes i') : i'.isLine = i.isLine := by
  cases h with
  | same => rfl
  | load hi => exact (isLine_of_literal? (by rw [hi]; rfl)).symm

theorem Becomes.isNullCheck (h : i.Becomes i') : i'.isNullCheck = i.isNullCheck := by
  cases h with
  | same => rfl
  | load hi =>
    cases hcheck : i.isNullCheck with
    | false => rfl
    | true => cases hi.symm.trans (literal?_of_isNullCheck hcheck)

theorem Becomes.isPseudo (h : i.Becomes i') : i'.isPseudo = i.isPseudo := by
  cases h with
  | same => rfl
  | load hi => cases i <;> first | rfl | cases hi

/-- An instruction without operands that pushes no literal was there before. -/
theorem Becomes.eq_simple_iff (h : i.Becomes i') {op : Opcode} (hop : (simple op).literal? = none) :
    i' = simple op ↔ i = simple op := by
  cases h with
  | same => rfl
  | load hi =>
    refine ⟨fun h => (nomatch h), ?_⟩
    rintro rfl
    cases hi.symm.trans hop

end Instr

theorem forall₂_find? {α : Type} {R : α → α → Prop} {p : α → Bool}
    (hp : ∀ a a', R a a' → p a' = p a) {l l' : List α} (h : List.Forall₂ R l l') :
    Option.Rel R (l.find? p) (l'.find? p) := by
  induction h with
  | nil => exact .none
  | cons ha _ ih =>
    rw [List.find?_cons, List.find?_cons, hp _ _ ha]
    split
    · exact .some ha
    · exact ih

section Code

variable {code code' : List Instr} (hcode : CodeBecomes code code')

include hcode

theorem nullCheckBefore?_becomes (index : Nat) :
    nullCheckBefore? code' index = nullCheckBefore? code index := by
  have hbefore := List.rel_filter (R := fun c c' => Instr.Becomes c.1 c'.1 ∧ c.2 = c'.2)
    (p := fun c : Instr × Nat => !c.1.isLine) (q := fun c : Instr × Nat => !c.1.isLine)
    (fun c c' hc => by simp [hc.1.isLine])
    (List.rel_reverse (forall₂_zipIdx (List.forall₂_take index hcode) 0))
  unfold nullCheckBefore?
  generalize ((code.take index).zipIdx.reverse.filter fun c => !c.1.isLine) = before,
    ((code'.take index).zipIdx.reverse.filter fun c => !c.1.isLine) = before' at hbefore ⊢
  cases hbefore with
  | nil => rfl
  | @cons c c' rest rest' hc hrest =>
    obtain ⟨i, pop⟩ := c
    obtain ⟨i', pop'⟩ := c'
    obtain ⟨hi, rfl⟩ := hc
    by_cases hpop : i = .simple .pop
    · obtain rfl := hpop
      obtain rfl := (hi.eq_simple_iff rfl).2 rfl
      cases hrest with
      | nil => rfl
      | cons hd =>
        obtain ⟨hcheck, hindex⟩ := hd
        simp only [hcheck.isNullCheck, hindex]
    · have hpop' : i' ≠ .simple .pop := mt (hi.eq_simple_iff rfl).1 hpop
      split
      next heq => exact absurd (Prod.mk.inj (List.cons.inj heq).1).1 hpop'
      next =>
        split
        next heq => exact absurd (Prod.mk.inj (List.cons.inj heq).1).1 hpop
        next => rfl

theorem isComplementOperand_becomes (index : Nat) (v : Value) :
    isComplementOperand code' index v = isComplementOperand code index v := by
  have hnext := forall₂_find? (p := fun i => !i.isPseudo) (fun i i' h => by rw [h.isPseudo])
    (List.forall₂_drop (index + 1) hcode)
  unfold isComplementOperand
  generalize (code.drop (index + 1)).find? (!·.isPseudo) = next,
    (code'.drop (index + 1)).find? (!·.isPseudo) = next' at hnext ⊢
  have heq (isLong : Bool) : (next' == some (.simple (.bit .xor isLong))) =
      (next == some (.simple (.bit .xor isLong))) := by
    rw [Bool.eq_iff_iff, beq_iff_eq, beq_iff_eq]
    cases hnext with
    | none => rfl
    | some h =>
      rw [Option.some_inj, Option.some_inj]
      exact h.eq_simple_iff rfl
  simp only [heq]

end Code

/-! ## Verdicts -/

namespace Subject

/-- The subject with other code. -/
def withCode (s : Subject) (code : List Instr) : Subject :=
  { s with method := { s.method with code } }

section Verdicts

variable {s : Subject} {code' : List Instr} (hcode : CodeBecomes s.method.code code')
  {a a' : Solution} (hframes : a'.frames = a.frames)

include hcode hframes

theorem nullCheck?_becomes (index : Nat) (e : Expr) :
    (s.withCode code').nullCheck? a' index e = s.nullCheck? a index e := by
  have hframe (k : Nat) : a'.frame? k = a.frame? k := by
    rw [Solution.frame?, Solution.frame?, hframes]
  have hcheck : nullCheckBefore? (s.withCode code').method.code index =
      nullCheckBefore? s.method.code index := nullCheckBefore?_becomes hcode index
  unfold nullCheck?
  rw [hcheck]
  simp only [hframe]
  rfl

theorem substitution_becomes (index : Nat) (literal : DataType) (w : StandIn) :
    (s.withCode code').substitution a' index literal w = s.substitution a index literal w := by
  unfold substitution checkedCode?
  rw [nullCheck?_becomes hcode hframes]
  rfl

/-- A group has the same verdict on a literal. -/
theorem groupVerdict_becomes {f f' : Facts} {value : Value}
    (hnarrow : f'.narrowType value.dataType = f.narrowType value.dataType) (index : Nat)
    (key : GroupKey) : (s.withCode code').groupVerdict a' index value f' key =
      s.groupVerdict a index value f key := by
  have hstandIn : (s.withCode code').standIn? key value f' = s.standIn? key value f := by
    unfold standIn?
    rw [hnarrow]
    rfl
  unfold groupVerdict
  rw [hstandIn]
  simp only [substitution_becomes hcode hframes]

end Verdicts

/-- What the chosen group puts in place of a literal. -/
theorem substitution?_verdict (s : Subject) (a : Solution) (index : Nat) (value : Value) (f : Facts) :
    (s.verdict a index value f).substitution? =
      ((s.groupChoice f).key? s.store value.dataType s.config.defaults).bind fun key =>
        (s.groupVerdict a index value f key).substitution? := by
  unfold verdict
  dsimp only
  cases (s.groupChoice f).key? s.store value.dataType s.config.defaults with
  | some key => rfl
  | none =>
    dsimp only [Option.bind_none]
    split_ifs <;> rfl

end Subject

/-! ## Destinations -/

/-- An analysis, and one of the same method with loads in place of literals that it reached. -/
structure Repeated (s : Subject) (code' : List Instr) (a a' : Solution) : Prop where
  code : CodeBecomes s.method.code code'
  before : solve s.registry s.config.stepLimit s.owner s.method = .ok a
  after : solve s.registry s.config.stepLimit s.owner (s.withCode code').method = .ok a'
  frames : a'.frames = a.frames
  facts : a.facts.Becomes s.method.code code' a'.facts
  loads : ∀ k v site, LoadedAt s.method.code code' k v site →
    a.isReachable k ∧ site.descriptor = v.dataType.descriptor

namespace Repeated

variable {s : Subject} {code' : List Instr} {a a' : Solution} (h : Repeated s code' a a')
  {x : Source} {j : Nat} {i : Instr}

include h

theorem getElem?_of_not_load (hi : code'[j]? = some i) (hload : ∀ site, i ≠ .field .getstatic site) :
    s.method.code[j]? = some i := by
  obtain ⟨i₀, hi₀, hbecomes⟩ := forall₂_getElem? h.code.flip hi
  cases hbecomes with
  | same => exact hi₀
  | load => exact absurd rfl (hload _)

theorem getElem?_of_not_literal (hi : s.method.code[j]? = some i) (hliteral : i.literal? = none) :
    code'[j]? = some i := by
  obtain ⟨i', hi', hbecomes⟩ := forall₂_getElem? h.code hi
  cases hbecomes with
  | same => exact hi'
  | load hv => cases hv.symm.trans hliteral

theorem knows_paramSource_iff {n : Nat} :
    a'.facts.Knows x (.paramSource n) ↔ a.facts.Knows x (.paramSource n) :=
  h.facts.knows_iff fun _ _ _ _ => ⟨nofun, nofun⟩

theorem knows_paramUsage_iff {c : Argument} :
    a'.facts.Knows x (.paramUsage c) ↔ a.facts.Knows x (.paramUsage c) :=
  h.facts.knows_iff fun _ _ _ _ => ⟨nofun, nofun⟩

theorem knows_usage_iff (hi : s.method.code[j]? = some i) (hliteral : i.literal? = none) :
    a'.facts.Knows x (.usage j) ↔ a.facts.Knows x (.usage j) := by
  refine h.facts.knows_iff fun k v site hload => ⟨nofun, ?_⟩
  rintro ⟨⟩
  obtain ⟨i', hi', hv⟩ := hload.pushes
  obtain rfl := Option.some.inj (hi.symm.trans hi')
  cases hliteral.symm.trans hv

theorem takesNone_iff : a'.TakesNone x j ↔ a.TakesNone x j :=
  forall_congr' fun _ => not_congr h.knows_paramUsage_iff

/-- A load in place of a literal is noted on the class of the literal, and on no other. -/
theorem knows_load_iff {v : Value} {site : FieldSite}
    (hload : LoadedAt s.method.code code' j v site) :
    a'.facts.Knows x (.usage j) ↔ a.facts.Same x (.instruction j) := by
  obtain ⟨hreachable, hsite⟩ := h.loads j v site hload
  have hreachable' : a'.isReachable j := by
    rw [Solution.isReachable, Solution.frame?, h.frames]
    exact hreachable
  have hself := solve_notes_load h.after hload.loads hsite hreachable'
  rw [← h.facts.same_iff]
  exact ⟨h.facts.same_of_knows hload.pushes, fun hsame => hself.of_same hsame.symm⟩

theorem destined_of_destined {d : Destination}
    (hd : a.Destined s.method s.owner (a.TakesNone x) x d) :
    a'.Destined (s.withCode code').method s.owner (a'.TakesNone x) x d := by
  cases hd with
  | param hx => exact .param (h.knows_paramSource_iff.2 hx)
  | argument hx hi => exact .argument (h.knows_paramUsage_iff.2 hx) (h.getElem?_of_not_literal hi rfl)
  | captured hx hi hbody hreceiver =>
    exact .captured (h.knows_paramUsage_iff.2 hx) (h.getElem?_of_not_literal hi rfl) hbody hreceiver
  | capturedAfter hx hi hbody hreceiver =>
    exact .capturedAfter (h.knows_paramUsage_iff.2 hx) (h.getElem?_of_not_literal hi rfl) hbody
      hreceiver
  | result hx hi hcounts =>
    exact .result (h.facts.same_iff.2 hx) (h.getElem?_of_not_literal hi rfl)
      (h.takesNone_iff.2 hcounts)
  | returned hx hi =>
    exact .returned ((h.knows_usage_iff hi rfl).2 hx) (h.getElem?_of_not_literal hi rfl)
  | field hx hi =>
    exact .field ((h.knows_usage_iff hi rfl).2 hx) (h.getElem?_of_not_literal hi rfl)

theorem destined_or_loaded {d : Destination}
    (hd : a'.Destined (s.withCode code').method s.owner (a'.TakesNone x) x d) :
    a.Destined s.method s.owner (a.TakesNone x) x d ∨
      ∃ k v site, LoadedAt s.method.code code' k v site ∧ a.facts.Same x (.instruction k) ∧
        d = .field site.member := by
  cases hd with
  | param hx => exact .inl (.param (h.knows_paramSource_iff.1 hx))
  | argument hx hi =>
    exact .inl (.argument (h.knows_paramUsage_iff.1 hx) (h.getElem?_of_not_load hi nofun))
  | captured hx hi hbody hreceiver =>
    exact .inl (.captured (h.knows_paramUsage_iff.1 hx) (h.getElem?_of_not_load hi nofun)
      hbody hreceiver)
  | capturedAfter hx hi hbody hreceiver =>
    exact .inl (.capturedAfter (h.knows_paramUsage_iff.1 hx) (h.getElem?_of_not_load hi nofun)
      hbody hreceiver)
  | result hx hi hcounts =>
    exact .inl (.result (h.facts.same_iff.1 hx) (h.getElem?_of_not_load hi nofun)
      (h.takesNone_iff.1 hcounts))
  | returned hx hi =>
    have hi := h.getElem?_of_not_load hi nofun
    exact .inl (.returned ((h.knows_usage_iff hi rfl).1 hx) hi)
  | @field j op site hx hi =>
    -- the access of a field was there before, or it is a load in place of a literal
    obtain ⟨i₀, hi₀, hbecomes⟩ := forall₂_getElem? h.code.flip hi
    cases hbecomes with
    | same => exact .inl (.field ((h.knows_usage_iff hi₀ rfl).1 hx) hi₀)
    | load hv =>
      have hload : LoadedAt s.method.code code' j _ site := ⟨⟨i₀, hi₀, hv⟩, hi⟩
      exact .inr ⟨j, _, site, hload, (h.knows_load_iff hload).1 hx, rfl⟩

/-- The destinations of a class are those that it had, and the fields that are now loaded in it. -/
theorem destined_iff {d : Destination} :
    a'.Destined (s.withCode code').method s.owner (a'.TakesNone x) x d ↔
      a.Destined s.method s.owner (a.TakesNone x) x d ∨
        ∃ k v site, LoadedAt s.method.code code' k v site ∧ a.facts.Same x (.instruction k) ∧
          d = .field site.member := by
  constructor
  · exact h.destined_or_loaded
  · rintro (hd | ⟨k, v, site, hload, hsame, rfl⟩)
    · exact h.destined_of_destined hd
    · exact .field ((h.knows_load_iff hload).2 hsame) hload.loads

/-! ## Choices -/

/-- A static field that is bound to a group is loaded in the class of a source now. -/
def Attracts (s : Subject) (code' : List Instr) (a : Solution) (x : Source) (g : String) : Prop :=
  ∃ k v site, LoadedAt s.method.code code' k v site ∧ a.facts.Same x (.instruction k) ∧
    s.store.bindings.fieldGroup site.member = some g

theorem mem_candidates_iff {f f' : Facts} (hf : a.facts.facts? x = some f)
    (hf' : a'.facts.facts? x = some f') (g : String) :
    g ∈ ((s.withCode code').method.destinations s.owner f').filterMap
        (·.group? s.registry s.store.bindings) ↔
      g ∈ (s.method.destinations s.owner f).filterMap (·.group? s.registry s.store.bindings) ∨
        Attracts s code' a x g := by
  simp only [List.mem_filterMap, mem_destinations_iff h.before hf, mem_destinations_iff h.after hf',
    h.destined_iff]
  constructor
  · rintro ⟨d, hd | ⟨k, v, site, hload, hsame, rfl⟩, hg⟩
    · exact .inl ⟨d, hd, hg⟩
    · exact .inr ⟨k, v, site, hload, hsame, hg⟩
  · rintro (⟨d, hd, hg⟩ | ⟨k, v, site, hload, hsame, hg⟩)
    · exact ⟨d, .inl hd, hg⟩
    · exact ⟨_, .inr ⟨k, v, site, hload, hsame, rfl⟩, hg⟩

/-- A literal stands for the same type, unless literals of another type took part. -/
theorem narrowType_eq {f f' : Facts} (hf : a.facts.facts? x = some f)
    (hf' : a'.facts.facts? x = some f') {t : DataType}
    (htypes : ∀ k v site, LoadedAt s.method.code code' k v site →
      v.dataType.stackKind = t.stackKind → v.dataType = t) :
    f'.narrowType t = f.narrowType t := by
  have hcontains (u : DataType) (hne : u ≠ t) (hkind : u.stackKind = t.stackKind) :
      f'.narrowTypes.contains u = f.narrowTypes.contains u := by
    have hknows : a'.facts.Knows x (.narrowType u) ↔ a.facts.Knows x (.narrowType u) := by
      refine h.facts.knows_iff fun k v site hload => ⟨?_, nofun⟩
      rintro ⟨⟩
      exact hne (htypes k v site hload hkind)
    rw [FactTable.knows_iff_holds hf, FactTable.knows_iff_holds hf'] at hknows
    exact Bool.eq_iff_iff.2 hknows
  have hfilter : (f'.narrowTypes.toList.filter fun u => u ≠ t ∧ u.stackKind = t.stackKind) =
      f.narrowTypes.toList.filter fun u => u ≠ t ∧ u.stackKind = t.stackKind := by
    simp only [TypeSet.toList, List.filter_filter]
    refine List.filter_congr fun u _ => ?_
    by_cases hu : u ≠ t ∧ u.stackKind = t.stackKind
    · rw [hcontains u hu.1 hu.2]
    · simp only [hu, decide_false, Bool.false_and]
  unfold Facts.narrowType
  rw [hfilter]

end Repeated

namespace GroupChoice

variable {l l' : List String} {g : String}

theorem key?_of_isConflict {c : GroupChoice} (h : c.isConflict) (s : Store) (type : DataType)
    (useDefault : Bool) : c.key? s type useDefault = none := by
  obtain ⟨first, other, rfl⟩ := eq_conflict h
  rfl

/-- Further candidates name the same group or make a conflict. -/
theorem eq_named_or_isConflict (hsub : ∀ g ∈ l, g ∈ l') (h : ofCandidates l = named g) :
    ofCandidates l' = named g ∨ (ofCandidates l').isConflict := by
  obtain ⟨⟨g', hg'⟩, hall⟩ := ofCandidates_eq_named_iff.1 h
  by_cases hagree : ∀ g' ∈ l', g' = g
  · exact .inl (ofCandidates_eq_named_iff.2 ⟨⟨g', hsub g' hg'⟩, hagree⟩)
  · push Not at hagree
    obtain ⟨other, hother, hne⟩ := hagree
    exact .inr (isConflict_ofCandidates_iff.2
      ⟨other, hother, g', hsub g' hg', fun heq => hne (heq.trans (hall g' hg'))⟩)

theorem isConflict_mono (hsub : ∀ g ∈ l, g ∈ l') (h : (ofCandidates l).isConflict) :
    (ofCandidates l').isConflict := by
  obtain ⟨g, hg, g', hg', hne⟩ := isConflict_ofCandidates_iff.1 h
  exact isConflict_ofCandidates_iff.2 ⟨g, hsub g hg, g', hsub g' hg', hne⟩

variable {s : Store} {type : DataType} {useDefault : Bool} {β : Type} {v : GroupKey → Option β}

theorem isSome_bind_iff_of_unclaimed
    (hnone : ((unclaimed).key? s type useDefault).bind v = none) :
    (((ofCandidates l).key? s type useDefault).bind v).isSome ↔
      ∃ g, g ∈ l ∧ (∀ g' ∈ l, g' = g) ∧ (v (.named g)).isSome := by
  cases hc : ofCandidates l with
  | named g =>
    obtain ⟨⟨g', hg'⟩, hall⟩ := ofCandidates_eq_named_iff.1 hc
    have hg : g ∈ l := hall g' hg' ▸ hg'
    constructor
    · exact fun hv => ⟨g, hg, hall, hv⟩
    · rintro ⟨g₁, hg₁, -, hv⟩
      obtain rfl := hall g₁ hg₁
      exact hv
  | conflict first other =>
    obtain ⟨g, hg, g', hg', hne⟩ := isConflict_ofCandidates_iff.1 (by rw [hc]; rfl)
    refine iff_of_false nofun ?_
    rintro ⟨g₁, -, honly, -⟩
    exact hne ((honly g hg).trans (honly g' hg').symm)
  | unclaimed =>
    rw [hnone]
    refine iff_of_false nofun ?_
    rintro ⟨g, hg, -⟩
    exact ofCandidates_eq_unclaimed_iff.1 hc g hg

/-- With further candidates a literal that no group could replace is replaced only if there was no
    candidate, the further ones agree, and their group can replace it. -/
theorem isSome_bind_iff {more : String → Prop} (hmore : ∀ g, g ∈ l' ↔ g ∈ l ∨ more g)
    (hnone : ((ofCandidates l).key? s type useDefault).bind v = none) :
    (((ofCandidates l').key? s type useDefault).bind v).isSome ↔
      ofCandidates l = .unclaimed ∧ ∃ g, more g ∧ (∀ g', more g' → g' = g) ∧
        (v (.named g)).isSome := by
  have hsub (g : String) (hg : g ∈ l) : g ∈ l' := (hmore g).2 (.inl hg)
  cases hc : ofCandidates l with
  | named g =>
    rw [hc] at hnone
    rcases eq_named_or_isConflict hsub hc with hc' | hc'
    · simp [hc', hnone]
    · simp [key?_of_isConflict hc']
  | conflict first other =>
    have hc' := isConflict_mono hsub (by rw [hc]; rfl)
    simp [key?_of_isConflict hc']
  | unclaimed =>
    have hmem (g : String) : g ∈ l' ↔ more g :=
      (hmore g).trans (or_iff_right (ofCandidates_eq_unclaimed_iff.1 hc g))
    rw [isSome_bind_iff_of_unclaimed (hc ▸ hnone)]
    simp only [hmem, true_and]

end GroupChoice

/-! ## Literals -/

namespace Subject

variable {s : Subject} {a : Solution}

theorem exists_literalAt?_iff {index : Nat} {i : Instr} {value : Value} :
    (∃ root f, s.literalAt? a index i = some (value, root, f)) ↔
      i.literal? = some value ∧ a.isReachable index ∧
        a.facts.Same (.instruction index) (.instruction index) ∧
        isComplementOperand s.method.code index value = false := by
  constructor
  · rintro ⟨root, f, h⟩
    obtain ⟨hvalue, hroot, -⟩ := literalAt?_eq_some h
    refine ⟨hvalue, isReachable_of_literalAt? h, ⟨root, hroot, hroot⟩, ?_⟩
    obtain ⟨value', hvalue', h⟩ := Option.bind_eq_some_iff.1 h
    obtain ⟨facts', -, h⟩ := Option.bind_eq_some_iff.1 h
    obtain ⟨root', -, h⟩ := Option.bind_eq_some_iff.1 h
    obtain rfl := Option.some.inj (hvalue.symm.trans hvalue')
    split_ifs at h with hoperand
    exact Bool.eq_false_iff.2 hoperand
  · rintro ⟨hvalue, hreachable, ⟨root, hroot, -⟩, hoperand⟩
    refine ⟨root, a.facts.factsAt root, ?_⟩
    simp [literalAt?, hvalue, Solution.facts?, hreachable, FactTable.facts?, hroot, Solution.root?,
      hoperand]

end Subject

namespace Repeated

variable {s : Subject} {code' : List Instr} {a a' : Solution} (h : Repeated s code' a a')
  {index : Nat} {i : Instr} {value : Value}

include h

/-- The same literals are to be restored, as long as they are there. -/
theorem exists_literalAt?_iff :
    (∃ root f, (s.withCode code').literalAt? a' index i = some (value, root, f)) ↔
      ∃ root f, s.literalAt? a index i = some (value, root, f) := by
  have hreachable : a'.isReachable index = a.isReachable index := by
    rw [Solution.isReachable, Solution.isReachable, Solution.frame?, Solution.frame?, h.frames]
  have hoperand : isComplementOperand (s.withCode code').method.code index value =
      isComplementOperand s.method.code index value := isComplementOperand_becomes h.code index value
  rw [Subject.exists_literalAt?_iff, Subject.exists_literalAt?_iff, hreachable, hoperand,
    h.facts.same_iff]

/-- A literal that stayed is replaced now just if it had no group, the fields that are
    loaded in its class now are bound to one, and this group has something for it. -/
theorem isSome_rewriteAt?_iff (hstays : s.rewriteAt? a index i = none)
    (htypes : ∀ k v site, LoadedAt s.method.code code' k v site → ∀ value, i.literal? = some value →
      v.dataType.stackKind = value.dataType.stackKind → v.dataType = value.dataType) :
    ((s.withCode code').rewriteAt? a' index i).isSome ↔
      ∃ value root f g, s.literalAt? a index i = some (value, root, f) ∧
        s.groupChoice f = .unclaimed ∧ Attracts s code' a (.instruction index) g ∧
        (∀ g', Attracts s code' a (.instruction index) g' → g' = g) ∧
        (s.groupVerdict a index value f (.named g)).substitution?.isSome := by
  by_cases hliteral : ∃ value root f, s.literalAt? a index i = some (value, root, f)
  · obtain ⟨value, root, f, hat⟩ := hliteral
    obtain ⟨root', f', hat'⟩ := h.exists_literalAt?_iff.2 ⟨root, f, hat⟩
    obtain ⟨hvalue, -, hf⟩ := Subject.literalAt?_eq_some hat
    obtain ⟨-, -, hf'⟩ := Subject.literalAt?_eq_some hat'
    have hnarrow := h.narrowType_eq hf hf' fun k v site hload => htypes k v site hload value hvalue
    rw [Subject.rewriteAt?_of_literalAt? hat, Option.map_eq_none_iff,
      Subject.substitution?_verdict] at hstays
    have hverdict (key : GroupKey) := Subject.groupVerdict_becomes h.code h.frames hnarrow index key
    rw [Subject.rewriteAt?_of_literalAt? hat', Option.isSome_map, Subject.substitution?_verdict]
    simp only [hverdict]
    refine (GroupChoice.isSome_bind_iff (h.mem_candidates_iff hf hf') hstays).trans ?_
    constructor
    · rintro ⟨hchoice, g, hg, honly, hsome⟩
      exact ⟨value, root, f, g, hat, hchoice, hg, honly, hsome⟩
    · rintro ⟨value', root', f', g, hat', hchoice, hg, honly, hsome⟩
      obtain ⟨rfl, rfl, rfl⟩ : value = value' ∧ root = root' ∧ f = f' := by
        simpa using hat.symm.trans hat'
      exact ⟨hchoice, g, hg, honly, hsome⟩
  · constructor
    · intro hsome
      obtain ⟨w, hw⟩ := Option.isSome_iff_exists.1 hsome
      obtain ⟨-, value, root, f, -, hat, -⟩ := Subject.rewriteAt?_eq_some hw
      obtain ⟨root', f', hat⟩ := h.exists_literalAt?_iff.1 ⟨root, f, hat⟩
      exact absurd ⟨value, root', f', hat⟩ hliteral
    · rintro ⟨value, root, f, -, hat, -⟩
      exact absurd ⟨value, root, f, hat⟩ hliteral

end Repeated

end ConstRestore
