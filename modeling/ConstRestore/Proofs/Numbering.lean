/-
  Lines that make instructions, and the numbers of labels.

  * labels are numbered without collisions as long as 32 bits suffice
    (`labelNumber_inj`);
  * the lines that make instructions do so in their order, so the index of the
    instruction of a line is the number of such lines before it
    (`getElem?_filterMap_of_kept`, `exists_kept`);
  * `AsmLine.Makes` says what a line makes where labels stand for names, whatever
    their numbers are.
-/
import ConstRestore.Bytecode.Assembly
import ConstRestore.Proofs.Result

namespace ConstRestore

/-! ## What a filter keeps -/

section Kept

variable {α β : Type} {f : α → Option β} {l : List α} {a a' : α} {b b' : β} {j k k' : Nat}

/-- The elements that are kept before an index. -/
def keptBefore (f : α → Option β) (l : List α) (k : Nat) : Nat := ((l.take k).filterMap f).length

theorem filterMap_eq_of_kept (ha : l[k]? = some a) (hb : f a = some b) :
    l.filterMap f = (l.take k).filterMap f ++ b :: (l.drop (k + 1)).filterMap f := by
  obtain ⟨hk, rfl⟩ := List.getElem?_eq_some_iff.1 ha
  conv_lhs => rw [← List.take_append_drop k l, List.drop_eq_getElem_cons hk]
  rw [List.filterMap_append, List.filterMap_cons_some hb]

theorem getElem?_filterMap_of_kept (ha : l[k]? = some a) (hb : f a = some b) :
    (l.filterMap f)[keptBefore f l k]? = some b := by
  rw [filterMap_eq_of_kept ha hb, keptBefore, List.getElem?_append_right (Nat.le_refl _),
    Nat.sub_self, List.getElem?_cons_zero]

theorem exists_kept (h : (l.filterMap f)[j]? = some b) :
    ∃ k a, l[k]? = some a ∧ f a = some b ∧ keptBefore f l k = j := by
  induction l generalizing j with
  | nil => cases h
  | cons x l ih =>
    cases hx : f x with
    | none =>
      rw [List.filterMap_cons_none hx] at h
      obtain ⟨k, a, ha, hb, hj⟩ := ih h
      exact ⟨k + 1, a, ha, hb, by simpa [keptBefore, hx] using hj⟩
    | some y =>
      rw [List.filterMap_cons_some hx] at h
      cases j with
      | zero => exact ⟨0, x, rfl, hx.trans h, rfl⟩
      | succ j =>
        obtain ⟨k, a, ha, hb, hj⟩ := ih h
        exact ⟨k + 1, a, ha, hb, by simpa [keptBefore, hx] using hj⟩

theorem keptBefore_lt (ha : l[k]? = some a) (hb : f a = some b) (h : k < k') :
    keptBefore f l k < keptBefore f l k' := by
  have ha' : (l.take k')[k]? = some a := by rwa [List.getElem?_take_of_lt h]
  have := congrArg List.length (filterMap_eq_of_kept ha' hb)
  rw [List.take_take, Nat.min_eq_left h.le, List.length_append, List.length_cons] at this
  unfold keptBefore
  omega

/-- Elements that are kept at one index are one element. -/
theorem eq_of_keptBefore_eq (ha : l[k]? = some a) (hb : f a = some b) (ha' : l[k']? = some a')
    (hb' : f a' = some b') (h : keptBefore f l k = keptBefore f l k') : k = k' := by
  rcases Nat.lt_trichotomy k k' with hlt | heq | hlt
  · exact absurd h (keptBefore_lt ha hb hlt).ne
  · exact heq
  · exact absurd h (keptBefore_lt ha' hb' hlt).ne'

/-- A filter and a partial map that keep the same elements give related lists. -/
theorem forall₂_filterMap {p : α → Bool} {R : α → β → Prop} (hp : ∀ a, p a = (f a).isSome)
    (h : ∀ a ∈ l, ∀ b, f a = some b → R a b) :
    List.Forall₂ R (l.filter p) (l.filterMap f) := by
  induction l with
  | nil => exact .nil
  | cons a l ih =>
    have hl := ih fun a' ha' => h a' (List.mem_cons_of_mem _ ha')
    cases hb : f a with
    | none => rwa [List.filterMap_cons_none hb, List.filter_cons_of_neg (by simp [hp, hb])]
    | some b =>
      rw [List.filterMap_cons_some hb, List.filter_cons_of_pos (by simp [hp, hb])]
      exact .cons (h a List.mem_cons_self b hb) hl

end Kept

/-! ## Numbers -/

theorem foldl_firstMentions (names seen : List String) :
    (∀ n, n ∈ names.foldl (fun seen n => if n ∈ seen then seen else seen ++ [n]) seen ↔
        n ∈ seen ∨ n ∈ names) ∧
      (seen.Nodup →
        (names.foldl (fun seen n => if n ∈ seen then seen else seen ++ [n]) seen).Nodup) := by
  induction names generalizing seen with
  | nil => simp
  | cons x names ih =>
    rw [List.foldl_cons]
    by_cases hx : x ∈ seen
    · rw [if_pos hx]
      refine ⟨fun n => ?_, (ih seen).2⟩
      rw [(ih seen).1, List.mem_cons]
      constructor
      · exact Or.imp_right .inr
      · rintro (hn | rfl | hn)
        · exact .inl hn
        · exact .inl hx
        · exact .inr hn
    · rw [if_neg hx]
      refine ⟨fun n => ?_, fun hseen => (ih _).2 ?_⟩
      · rw [(ih _).1, List.mem_append, List.mem_singleton, List.mem_cons, or_assoc]
      · rw [← List.concat_eq_append]
        exact hseen.concat hx

theorem mem_firstMentions {names : List String} {n : String} :
    n ∈ firstMentions names ↔ n ∈ names := by
  rw [firstMentions, (foldl_firstMentions names []).1]
  simp

theorem nodup_firstMentions (names : List String) : (firstMentions names).Nodup :=
  (foldl_firstMentions names []).2 List.nodup_nil

theorem length_firstMentions (names : List String) :
    (firstMentions names).length = names.toFinset.card := by
  rw [← List.toFinset_card_of_nodup (nodup_firstMentions names)]
  congr 1
  ext n
  simp [mem_firstMentions]

/-- Different names have different numbers if there are few enough. -/
theorem labelNumber_inj {names : List String} (hcount : names.toFinset.card < 2 ^ 32)
    {a b : String} (ha : a ∈ names) (hb : b ∈ names)
    (h : labelNumber (firstMentions names) a = labelNumber (firstMentions names) b) : a = b := by
  have hsmall {n : String} (hn : n ∈ names) :
      labelNumber (firstMentions names) n = (firstMentions names).idxOf n := by
    have := List.idxOf_lt_length_of_mem (mem_firstMentions.2 hn)
    rw [length_firstMentions] at this
    exact Nat.min_eq_left (by omega)
  rw [hsmall ha, hsmall hb] at h
  exact (List.idxOf_inj (mem_firstMentions.2 ha)).1 h

theorem nodup_of_firstRepeated?_eq_none {number : String → Label} {seen : List Label}
    {names : List String} (h : firstRepeated? number seen names = none) :
    (names.map number).Nodup ∧ ∀ n ∈ names, number n ∉ seen := by
  induction names generalizing seen with
  | nil => simp
  | cons x names ih =>
    rw [firstRepeated?] at h
    by_cases hx : number x ∈ seen
    · simp [if_pos hx] at h
    · rw [if_neg hx] at h
      obtain ⟨hnodup, hseen⟩ := ih h
      rw [List.map_cons, List.nodup_cons]
      refine ⟨⟨fun hmem => ?_, hnodup⟩, List.forall_mem_cons.2 ⟨hx, fun n hn hmem => ?_⟩⟩
      · obtain ⟨n, hn, heq⟩ := List.mem_map.1 hmem
        exact hseen n hn (heq ▸ List.mem_cons_self)
      · exact hseen n hn (List.mem_cons_of_mem _ hmem)

/-- The name that is reported has a number that is not new where the name stands. -/
theorem firstRepeated?_eq_some {number : String → Label} {seen : List Label}
    {names : List String} {n : String} (h : firstRepeated? number seen names = some n) :
    ∃ before after, names = before ++ n :: after ∧
      (number n ∈ seen ∨ number n ∈ before.map number) := by
  induction names generalizing seen with
  | nil => cases h
  | cons x names ih =>
    rw [firstRepeated?] at h
    by_cases hx : number x ∈ seen
    · rw [if_pos hx] at h
      obtain rfl := Option.some.inj h
      exact ⟨[], names, rfl, .inl hx⟩
    · rw [if_neg hx] at h
      obtain ⟨before, after, rfl, hrepeated⟩ := ih h
      refine ⟨x :: before, after, rfl, ?_⟩
      rw [List.map_cons, List.mem_cons]
      rcases hrepeated with hseen | hbefore
      · rcases List.mem_cons.1 hseen with heq | hseen
        · exact .inr (.inl heq)
        · exact .inl hseen
      · exact .inr (.inr hbefore)

/-! ## Lines -/

namespace AsmLine

/-- Whether a line makes an instruction. -/
def isCode : AsmLine → Bool
  | tryBlock .. | maxLocals _ | maxStack _ => false
  | _ => true

def isTryBlock : AsmLine → Bool
  | tryBlock .. => true
  | _ => false

/-- Labels stand in the line by name only. -/
def ByName : AsmLine → Prop
  | instr i => (∀ l, i ≠ .label l) ∧ i.targets = []
  | _ => True

/-- A line makes an instruction, where the labels stand for the names as `R` says. -/
inductive Makes (R : String → Label → Prop) : AsmLine → Instr → Prop
  | label {name : String} {l : Label} : R name l → Makes R (.label name) (.label l)
  | instr (i : Instr) : Makes R (.instr i) i
  | jump (op : Opcode) {target : String} {l : Label} :
      R target l → Makes R (.jump op target) (.jump op l)
  | tableSwitch (low : Int32) {d : String} {ts : List String} {l : Label} {ls : List Label} :
      R d l → List.Forall₂ R ts ls →
      Makes R (.tableSwitch low d ts) (.tableSwitch low (highKey low ts.length) l ls)
  | lookupSwitch {d : String} {ps : List (Int32 × String)} {l : Label}
      {qs : List (Int32 × Label)} :
      R d l → List.Forall₂ (fun p q => p.1 = q.1 ∧ R p.2 q.2) ps qs →
      Makes R (.lookupSwitch d ps) (.lookupSwitch l qs)

/-- A line makes an exception handler, where the labels stand for the names as `R` says. -/
inductive MakesBlock (R : String → Label → Prop) : AsmLine → TryBlock → Prop
  | tryBlock {start stop handler : String} {catchType : Option String} {l l' l'' : Label} :
      R start l → R stop l' → R handler l'' →
      MakesBlock R (.tryBlock start stop handler catchType) ⟨l, l', l'', catchType⟩

variable {R : String → Label → Prop} {number : String → Label} {line : AsmLine} {i : Instr}
  {b : TryBlock} {l : Label}

theorem isCode_eq (number : String → Label) (line : AsmLine) :
    line.isCode = (line.instr? number).isSome := by
  cases line <;> rfl

theorem isTryBlock_eq (number : String → Label) (line : AsmLine) :
    line.isTryBlock = (line.tryBlock? number).isSome := by
  cases line <;> rfl

theorem eq_label_of_instr? (hline : line.ByName) (h : line.instr? number = some (.label l)) :
    ∃ name, line = .label name ∧ number name = l := by
  cases line with
  | label name => exact ⟨name, rfl, Instr.label.inj (Option.some.inj h)⟩
  | instr i => exact absurd (Option.some.inj h) (hline.1 l)
  | jump | tableSwitch | lookupSwitch => cases Option.some.inj h
  | tryBlock | maxLocals | maxStack => cases h

theorem forall₂_number {names : List String} (hR : ∀ name ∈ names, R name (number name)) :
    List.Forall₂ R names (names.map number) :=
  List.forall₂_map_right_iff.2 (List.forall₂_same.2 hR)

theorem makes_instr? (h : line.instr? number = some i)
    (hR : ∀ name ∈ line.mentions, R name (number name)) : line.Makes R i := by
  cases line with
  | label name =>
    obtain rfl := Option.some.inj h
    exact .label (hR name List.mem_cons_self)
  | instr i =>
    obtain rfl := Option.some.inj h
    exact .instr i
  | jump op target =>
    obtain rfl := Option.some.inj h
    exact .jump op (hR target List.mem_cons_self)
  | tableSwitch low d ts =>
    obtain rfl := Option.some.inj h
    exact .tableSwitch low (hR d List.mem_cons_self)
      (forall₂_number fun name hname => hR name (List.mem_cons_of_mem _ hname))
  | lookupSwitch d ps =>
    obtain rfl := Option.some.inj h
    refine .lookupSwitch (hR d List.mem_cons_self) (List.forall₂_map_right_iff.2 ?_)
    exact List.forall₂_same.2 fun p hp =>
      ⟨rfl, hR p.2 (List.mem_cons_of_mem _ (List.mem_map_of_mem hp))⟩
  | tryBlock | maxLocals | maxStack => cases h

theorem makesBlock_tryBlock? (h : line.tryBlock? number = some b)
    (hR : ∀ name ∈ line.mentions, R name (number name)) : line.MakesBlock R b := by
  cases line with
  | tryBlock start stop handler catchType =>
    obtain rfl := Option.some.inj h
    exact .tryBlock (hR start (by simp [mentions])) (hR stop (by simp [mentions]))
      (hR handler (by simp [mentions]))
  | label | instr | jump | tableSwitch | lookupSwitch | maxLocals | maxStack => cases h

/-- Every label of a line's instruction stands for a name. -/
theorem Makes.exists_name (h : line.Makes R i) (hline : line.ByName)
    (hl : i = .label l ∨ l ∈ i.targets) : ∃ name, R name l := by
  cases h with
  | @label name l' hR =>
    rcases hl with hl | hl
    · obtain rfl := Instr.label.inj hl
      exact ⟨name, hR⟩
    · cases hl
  | instr i =>
    rcases hl with rfl | hl
    · exact absurd rfl (hline.1 l)
    · rw [hline.2] at hl
      cases hl
  | @jump op target l' hR =>
    obtain rfl := List.mem_singleton.1 (hl.resolve_left nofun)
    exact ⟨target, hR⟩
  | @tableSwitch low d ts l' ls hd hts =>
    rcases List.mem_cons.1 (hl.resolve_left nofun) with rfl | hl
    · exact ⟨d, hd⟩
    · obtain ⟨name, -, hR⟩ := exists_of_mem_forall₂ hts.flip hl
      exact ⟨name, hR⟩
  | @lookupSwitch d ps l' qs hd hps =>
    rcases List.mem_cons.1 (hl.resolve_left nofun) with rfl | hl
    · exact ⟨d, hd⟩
    · obtain ⟨q, hq, rfl⟩ := List.mem_map.1 hl
      obtain ⟨p, -, -, hR⟩ := exists_of_mem_forall₂ hps.flip hq
      exact ⟨p.2, hR⟩

theorem MakesBlock.exists_name (h : line.MakesBlock R b)
    (hl : l = b.start ∨ l = b.stop ∨ l = b.handler) : ∃ name, R name l := by
  cases h with
  | tryBlock hstart hstop hhandler =>
    rcases hl with rfl | rfl | rfl
    · exact ⟨_, hstart⟩
    · exact ⟨_, hstop⟩
    · exact ⟨_, hhandler⟩

end AsmLine

end ConstRestore
