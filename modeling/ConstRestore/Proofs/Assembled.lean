/-
  The labels of assembled methods.

  A body names its labels, and `assemble` numbers them.  Whether a name is
  first mentioned by a jump, a switch, a handler or its own line does not matter
  in the end: `Bound` says that a number of the method is the label of a name,
  and `AssembledFrom` that every label of the method is the one of the name that stands
  in its place in the body.

  `assemble_linked`: if every mentioned name is placed once then the number of a
  name is bound to it (`bound_number`), at the instruction of its line
  (`codeIndex`).
-/
import ConstRestore.Proofs.Numbering
import ConstRestore.Proofs.Positions

namespace ConstRestore

/-! ## Bodies -/

section Bodies

variable {access : Access} {name descriptor : String} {lines : List AsmLine}

/-- The names of a body. -/
def mentionedIn (lines : List AsmLine) : List String := lines.flatMap AsmLine.mentions

/-- The names that lines of a body place, in order. -/
def placedIn (lines : List AsmLine) : List String := lines.filterMap AsmLine.places?

/-- The number of a name of a body. -/
def numberIn (lines : List AsmLine) : String → Label :=
  labelNumber (firstMentions (mentionedIn lines))

/-- More than one line places the name. -/
def PlacedTwice (lines : List AsmLine) (name : String) : Prop := 2 ≤ (placedIn lines).count name

/-- The name is mentioned, and no line places it. -/
def NeverPlaced (lines : List AsmLine) (name : String) : Prop :=
  name ∈ mentionedIn lines ∧ name ∉ placedIn lines

/-- The name for which a body is rejected as placed twice. -/
def repeatedIn? (lines : List AsmLine) : Option String :=
  firstRepeated? (numberIn lines) [] (placedIn lines)

/-- The name for which a body is rejected as never placed. -/
def unplacedIn? (lines : List AsmLine) : Option String :=
  (firstMentions (mentionedIn lines)).find?
    (numberIn lines · ∉ (placedIn lines).map (numberIn lines))

theorem mem_mentionedIn_of_placed (h : name ∈ placedIn lines) : name ∈ mentionedIn lines := by
  obtain ⟨line, hline, hplaces⟩ := List.mem_filterMap.1 h
  cases line <;> cases hplaces
  exact List.mem_flatMap.2 ⟨_, hline, List.mem_cons_self⟩

theorem assemble_of_repeated {n : String} (h : repeatedIn? lines = some n) :
    assemble access name descriptor lines = .error (.placedTwice n) := by
  unfold repeatedIn? numberIn placedIn mentionedIn at h
  simp only [assemble, h]
  rfl

theorem assemble_of_unplaced {n : String} (h : repeatedIn? lines = none)
    (h' : unplacedIn? lines = some n) :
    assemble access name descriptor lines = .error (.neverPlaced n) := by
  unfold repeatedIn? numberIn placedIn mentionedIn at h
  unfold unplacedIn? numberIn placedIn mentionedIn at h'
  simp only [assemble, h, h']
  rfl

/-- The local variables that a body needs. -/
def neededLocals (access : Access) (d : MethodDescriptor) (code : List Instr) : Nat :=
  (code.map Instr.touchedLocals).foldl max
    ((if access.has Access.static then 0 else 1) + d.argumentSlots)

/-- A body without faults assembles if it says how many local variables it has, or needs few
    enough. -/
theorem assemble_of_placed {d : MethodDescriptor} (h : repeatedIn? lines = none)
    (h' : unplacedIn? lines = none) (hd : MethodDescriptor.parse descriptor = .ok d)
    (hfits : (∃ n, AsmLine.maxLocals n ∈ lines) ∨
      neededLocals access d (lines.filterMap (AsmLine.instr? (numberIn lines))) < 65536) :
    ∃ m, assemble access name descriptor lines = .ok m ∧
      m.code = lines.filterMap (AsmLine.instr? (numberIn lines)) ∧
      m.tryBlocks = lines.filterMap (AsmLine.tryBlock? (numberIn lines)) ∧
      ((∀ n, AsmLine.maxLocals n ∉ lines) → m.maxLocals = neededLocals access d m.code) := by
  unfold repeatedIn? numberIn placedIn mentionedIn at h
  unfold unplacedIn? numberIn placedIn mentionedIn at h'
  unfold numberIn mentionedIn neededLocals at hfits
  simp only [assemble, h, h', hd]
  cases hgiven : (lines.filterMap AsmLine.maxLocals?).getLast? with
  | some n =>
    refine ⟨_, rfl, rfl, rfl, fun hnone => ?_⟩
    obtain ⟨line, hline, hn⟩ := List.mem_filterMap.1 (List.mem_of_getLast? hgiven)
    cases line <;> cases hn
    exact absurd hline (hnone n)
  | none =>
    have hneeded := hfits.resolve_left fun ⟨n, hn⟩ => by
      have hmem : n ∈ lines.filterMap AsmLine.maxLocals? := List.mem_filterMap.2 ⟨_, hn, rfl⟩
      rw [List.getLast?_eq_none_iff.1 hgiven] at hmem
      cases hmem
    exact ⟨_, bind_eq_ok.2 ⟨d, rfl, (if_pos hneeded).trans rfl⟩, rfl, rfl, fun _ => rfl⟩

/-! ### Faults -/

theorem numberIn_inj (hcount : (mentionedIn lines).toFinset.card < 2 ^ 32) {a b : String}
    (ha : a ∈ mentionedIn lines) (hb : b ∈ mentionedIn lines)
    (h : numberIn lines a = numberIn lines b) : a = b :=
  labelNumber_inj hcount ha hb h

theorem placedTwice_of_repeated (hcount : (mentionedIn lines).toFinset.card < 2 ^ 32)
    {n : String} (h : repeatedIn? lines = some n) : PlacedTwice lines n := by
  obtain ⟨before, after, hplaced, hn⟩ := firstRepeated?_eq_some h
  obtain ⟨n', hn', heq⟩ := List.mem_map.1 (hn.resolve_left List.not_mem_nil)
  have hmem {a : String} (ha : a ∈ before ++ n :: after) : a ∈ mentionedIn lines :=
    mem_mentionedIn_of_placed (hplaced ▸ ha)
  obtain rfl := numberIn_inj hcount (hmem (List.mem_append_left _ hn')) (hmem (by simp)) heq
  have hbefore := List.count_pos_iff.2 hn'
  rw [PlacedTwice, hplaced, List.count_append, List.count_cons_self]
  omega

theorem neverPlaced_of_unplaced {n : String} (h : unplacedIn? lines = some n) :
    NeverPlaced lines n := by
  have hnumber := List.find?_some h
  rw [decide_eq_true_eq] at hnumber
  exact ⟨mem_firstMentions.1 (List.mem_of_find?_eq_some h),
    fun hplaced => hnumber (List.mem_map_of_mem hplaced)⟩

theorem nodup_placedIn (h : repeatedIn? lines = none) : (placedIn lines).Nodup :=
  (nodup_of_firstRepeated?_eq_none h).1.of_map

theorem mem_placedIn (hcount : (mentionedIn lines).toFinset.card < 2 ^ 32)
    (h : unplacedIn? lines = none) {n : String} (hn : n ∈ mentionedIn lines) :
    n ∈ placedIn lines := by
  have hnumber := List.find?_eq_none.1 h n (mem_firstMentions.2 hn)
  rw [decide_eq_true_eq, not_not] at hnumber
  obtain ⟨n', hn', heq⟩ := List.mem_map.1 hnumber
  rwa [← numberIn_inj hcount (mem_mentionedIn_of_placed hn') hn heq]

/-! ### Positions -/

/-- The index of the instruction of a line: the lines that make instructions before it. -/
def codeIndex (lines : List AsmLine) (k : Nat) : Nat := (lines.take k).countP AsmLine.isCode

/-- The label of the method is the one that the line of the name places, and it is nowhere else. -/
def Bound (lines : List AsmLine) (m : Method) (name : String) (l : Label) : Prop :=
  ∃ k, lines[k]? = some (.label name) ∧
    (∀ j, m.code[j]? = some (.label l) ↔ j = codeIndex lines k) ∧
    m.labelPositions.get? l = some (codeIndex lines k)

theorem keptBefore_instr? (number : String → Label) (lines : List AsmLine) (k : Nat) :
    keptBefore (AsmLine.instr? number) lines k = codeIndex lines k := by
  rw [keptBefore, List.length_filterMap_eq_countP, codeIndex]
  exact List.countP_congr fun line _ => by rw [AsmLine.isCode_eq number]

/-- Lines that place one name are one line. -/
theorem placing_unique (h : (placedIn lines).Nodup) {k k' : Nat}
    (hk : lines[k]? = some (.label name)) (hk' : lines[k']? = some (.label name)) : k = k' := by
  have hat := getElem?_filterMap_of_kept (f := AsmLine.places?) hk rfl
  have hat' := getElem?_filterMap_of_kept (f := AsmLine.places?) hk' rfl
  obtain ⟨hlt, -⟩ := List.getElem?_eq_some_iff.1 hat
  exact eq_of_keptBefore_eq (f := AsmLine.places?) hk rfl hk' rfl
    ((List.getElem?_inj hlt h).1 (hat.trans hat'.symm))

/-- The number of a name is the label of the method that is bound to it. -/
theorem bound_number (hcount : (mentionedIn lines).toFinset.card < 2 ^ 32)
    (hnamed : ∀ line ∈ lines, line.ByName) (hnodup : (placedIn lines).Nodup)
    (hname : name ∈ placedIn lines) {m : Method}
    (hcode : m.code = lines.filterMap (AsmLine.instr? (numberIn lines))) :
    Bound lines m name (numberIn lines name) := by
  obtain ⟨line, hline, hplaces⟩ := List.mem_filterMap.1 hname
  obtain ⟨k, hk⟩ := List.mem_iff_getElem?.1 hline
  obtain rfl : line = .label name := by
    cases line <;> cases hplaces
    rfl
  have hat : ∀ j, m.code[j]? = some (.label (numberIn lines name)) ↔ j = codeIndex lines k := by
    intro j
    rw [hcode]
    constructor
    · intro hj
      -- a line makes the instruction, and only the line of the name makes this label
      obtain ⟨k', line', hk', hline', rfl⟩ := exists_kept hj
      rw [keptBefore_instr?]
      obtain ⟨name', rfl, heq⟩ := AsmLine.eq_label_of_instr?
        (hnamed _ (List.mem_of_getElem? hk')) hline'
      have hname' : name' ∈ placedIn lines :=
        List.mem_filterMap.2 ⟨_, List.mem_of_getElem? hk', rfl⟩
      obtain rfl := numberIn_inj hcount (mem_mentionedIn_of_placed hname')
        (mem_mentionedIn_of_placed hname) heq
      rw [placing_unique hnodup hk hk']
    · rintro rfl
      rw [← keptBefore_instr? (numberIn lines)]
      exact getElem?_filterMap_of_kept hk rfl
  refine ⟨k, hk, hat, Method.labelPositions_eq_some.2 ⟨(hat _).2 rfl, fun j hj => ?_⟩⟩
  exact ((hat j).1 hj).le

/-- Labels that the control flow of a method refers to, and labels that stand in its code. -/
def Method.Mentions (m : Method) (l : Label) : Prop :=
  .label l ∈ m.code ∨ (∃ i ∈ m.code, l ∈ i.targets) ∨
    ∃ b ∈ m.tryBlocks, l = b.start ∨ l = b.stop ∨ l = b.handler

/-- The local variables of which an instruction reads or writes a half or the whole. -/
def Instr.localSlots : Instr → List Nat
  | .var (.load .long) slot | .var (.load .double) slot
  | .var (.store .long) slot | .var (.store .double) slot => [slot, slot + 1]
  | .var _ slot | .iinc slot _ => [slot]
  | _ => []

/-- A method is what a body says, with a label for every name. -/
structure AssembledFrom (lines : List AsmLine) (m : Method) : Prop where
  /-- Instructions refer to the lines of the names that stand in them. -/
  code : List.Forall₂ (AsmLine.Makes (Bound lines m)) (lines.filter AsmLine.isCode) m.code
  /-- So do exception handlers. -/
  blocks : List.Forall₂ (AsmLine.MakesBlock (Bound lines m)) (lines.filter AsmLine.isTryBlock)
    m.tryBlocks
  /-- Every label is at one place. -/
  unique : ∀ l, m.Mentions l → ∃! j : Nat, m.code[j]? = some (.label l)
  distinct : ∀ a b l, Bound lines m a l → Bound lines m b l → a = b
  /-- Local variables are in range unless the body says how many there are. -/
  locals : (∀ n, AsmLine.maxLocals n ∉ lines) →
    ∀ i ∈ m.code, ∀ slot ∈ i.localSlots, slot < m.maxLocals

theorem Bound.existsUnique {m : Method} {l : Label} (h : Bound lines m name l) :
    ∃! j : Nat, m.code[j]? = some (.label l) := by
  obtain ⟨k, -, hat, -⟩ := h
  exact ⟨codeIndex lines k, (hat _).2 rfl, fun j hj => (hat j).1 hj⟩

/-- A label is bound to one name: the line of the name is the one of its instruction. -/
theorem Bound.unique {m : Method} {a b : String} {l : Label} (ha : Bound lines m a l)
    (hb : Bound lines m b l) : a = b := by
  obtain ⟨k, hk, hat, -⟩ := ha
  obtain ⟨k', hk', hat', -⟩ := hb
  have hindex : codeIndex lines k = codeIndex lines k' := (hat' _).1 ((hat _).2 rfl)
  rw [← keptBefore_instr? fun _ => 0, ← keptBefore_instr? fun _ => 0] at hindex
  obtain rfl := eq_of_keptBefore_eq (f := AsmLine.instr? fun _ => 0) hk rfl hk' rfl hindex
  exact AsmLine.label.inj (Option.some.inj (hk.symm.trans hk'))

/-! ### Local variables -/

theorem le_foldl_max {l : List Nat} {a x : Nat} (h : x ≤ a ∨ x ∈ l) : x ≤ l.foldl max a := by
  induction l generalizing a with
  | nil => exact h.resolve_right List.not_mem_nil
  | cons y l ih =>
    rw [List.foldl_cons]
    rcases h with h | h
    · exact ih (.inl (h.trans (Nat.le_max_left ..)))
    · rcases List.mem_cons.1 h with rfl | h
      · exact ih (.inl (Nat.le_max_right ..))
      · exact ih (.inr h)

theorem foldl_max_lt {l : List Nat} {a n : Nat} (ha : a < n) (hl : ∀ x ∈ l, x < n) :
    l.foldl max a < n := by
  induction l generalizing a with
  | nil => exact ha
  | cons y l ih =>
    obtain ⟨hy, hl⟩ := List.forall_mem_cons.1 hl
    exact ih (Nat.max_lt.2 ⟨ha, hy⟩) hl

theorem Instr.lt_touchedLocals {i : Instr} {slot : Nat} (h : slot ∈ i.localSlots) :
    slot < i.touchedLocals := by
  unfold Instr.localSlots at h
  split at h
  case h_5 op slot' hload hloadDouble hstore hstoreDouble =>
    obtain rfl := List.mem_singleton.1 h
    unfold Instr.touchedLocals
    dsimp only
    split <;> omega
  case h_7 => cases h
  all_goals
    simp only [List.mem_cons, List.not_mem_nil, or_false] at h
    simp only [Instr.touchedLocals]
    omega

/-- Local variables are in range, as the method has as many as its instructions need. -/
theorem lt_neededLocals {d : MethodDescriptor} {code : List Instr} {i : Instr} {slot : Nat}
    (hi : i ∈ code) (hslot : slot ∈ i.localSlots) : slot < neededLocals access d code :=
  (Instr.lt_touchedLocals hslot).trans_le (le_foldl_max (.inr (List.mem_map_of_mem hi)))

/-- Lines with labels need no local variables. -/
theorem neededLocals_lt {d : MethodDescriptor} {number : String → Label} {n : Nat}
    (harguments : (if access.has Access.static then 0 else 1) + d.argumentSlots < n)
    (hinstr : ∀ i, AsmLine.instr i ∈ lines → i.touchedLocals < n) :
    neededLocals access d (lines.filterMap (AsmLine.instr? number)) < n := by
  refine foldl_max_lt harguments fun x hx => ?_
  obtain ⟨i, hi, rfl⟩ := List.mem_map.1 hx
  obtain ⟨line, hline, hi⟩ := List.mem_filterMap.1 hi
  cases line with
  | instr i' =>
    obtain rfl := Option.some.inj hi
    exact hinstr i' hline
  | label | jump | tableSwitch | lookupSwitch =>
    obtain rfl := Option.some.inj hi
    exact Nat.zero_lt_of_lt harguments
  | tryBlock | maxLocals | maxStack => cases hi

/-! ### Assembled bodies -/

/-- What the lines of a body make refers to labels as the body names them. -/
theorem linked_of_placed (hcount : (mentionedIn lines).toFinset.card < 2 ^ 32)
    (hnamed : ∀ line ∈ lines, line.ByName) (hnodup : (placedIn lines).Nodup)
    (hplaced : ∀ n ∈ mentionedIn lines, n ∈ placedIn lines) {m : Method} {d : MethodDescriptor}
    (hcode : m.code = lines.filterMap (AsmLine.instr? (numberIn lines)))
    (hblocks : m.tryBlocks = lines.filterMap (AsmLine.tryBlock? (numberIn lines)))
    (hlocals : (∀ n, AsmLine.maxLocals n ∉ lines) →
      m.maxLocals = neededLocals access d m.code) : AssembledFrom lines m := by
  have hbound : ∀ line ∈ lines, ∀ n ∈ line.mentions, Bound lines m n (numberIn lines n) :=
    fun line hline n hn => bound_number hcount hnamed hnodup
      (hplaced n (List.mem_flatMap.2 ⟨line, hline, hn⟩)) hcode
  have hmakes : List.Forall₂ (AsmLine.Makes (Bound lines m)) (lines.filter AsmLine.isCode)
      m.code := by
    rw [hcode]
    exact forall₂_filterMap (AsmLine.isCode_eq _) fun line hline i hi =>
      AsmLine.makes_instr? hi (hbound line hline)
  have hmakesBlocks : List.Forall₂ (AsmLine.MakesBlock (Bound lines m))
      (lines.filter AsmLine.isTryBlock) m.tryBlocks := by
    rw [hblocks]
    exact forall₂_filterMap (AsmLine.isTryBlock_eq _) fun line hline b hb =>
      AsmLine.makesBlock_tryBlock? hb (hbound line hline)
  refine ⟨hmakes, hmakesBlocks, fun l hl => ?_, fun a b l ha hb => ha.unique hb,
    fun hnone i hi slot hslot => hlocals hnone ▸ lt_neededLocals hi hslot⟩
  have hinstr {i : Instr} (hi : i ∈ m.code) (hl : i = .label l ∨ l ∈ i.targets) :
      ∃ name, Bound lines m name l := by
    obtain ⟨line, hline, hmade⟩ := exists_of_mem_forall₂ hmakes.flip hi
    exact hmade.exists_name (hnamed line (List.mem_of_mem_filter hline)) hl
  obtain ⟨name, hname⟩ : ∃ name, Bound lines m name l := by
    rcases hl with hl | ⟨i, hi, hl⟩ | ⟨b, hb, hl⟩
    · exact hinstr hl (.inl rfl)
    · exact hinstr hi (.inr hl)
    · obtain ⟨line, -, hmade⟩ := exists_of_mem_forall₂ hmakesBlocks.flip hb
      exact hmade.exists_name hl
  exact hname.existsUnique

end Bodies

/-- Bodies in which labels stand by name only, with names for 32 bits.  A body that places a name
    twice, or mentions one that it does not place, is rejected for such a name.  Any other
    one assembles, given a descriptor and a number of local variables that fits 16 bits, to a
    method whose labels are the names of the body. -/
theorem assemble_linked (access : Access) (name descriptor : String) (lines : List AsmLine)
    (hnamed : ∀ line ∈ lines, line.ByName)
    (hcount : (mentionedIn lines).toFinset.card < 2 ^ 32) :
    ((∃ n, PlacedTwice lines n ∨ NeverPlaced lines n) → ∃ n,
      assemble access name descriptor lines = .error (.placedTwice n) ∧ PlacedTwice lines n ∨
      assemble access name descriptor lines = .error (.neverPlaced n) ∧ NeverPlaced lines n) ∧
    ((¬ ∃ n, PlacedTwice lines n ∨ NeverPlaced lines n) →
      ∀ d, MethodDescriptor.parse descriptor = .ok d →
      ((∃ n, AsmLine.maxLocals n ∈ lines) ∨
        (if access.has Access.static then 0 else 1) + d.argumentSlots < 65536 ∧
          ∀ i, AsmLine.instr i ∈ lines → i.touchedLocals < 65536) →
      ∃ m, assemble access name descriptor lines = .ok m ∧ AssembledFrom lines m) := by
  cases hrepeated : repeatedIn? lines with
  | some n =>
    have htwice := placedTwice_of_repeated hcount hrepeated
    exact ⟨fun _ => ⟨n, .inl ⟨assemble_of_repeated hrepeated, htwice⟩⟩,
      fun hnone => absurd ⟨n, .inl htwice⟩ hnone⟩
  | none =>
    cases hunplaced : unplacedIn? lines with
    | some n =>
      have hnever := neverPlaced_of_unplaced hunplaced
      exact ⟨fun _ => ⟨n, .inr ⟨assemble_of_unplaced hrepeated hunplaced, hnever⟩⟩,
        fun hnone => absurd ⟨n, .inr hnever⟩ hnone⟩
    | none =>
      have hnodup := nodup_placedIn hrepeated
      have hplaced : ∀ n ∈ mentionedIn lines, n ∈ placedIn lines :=
        fun n hn => mem_placedIn hcount hunplaced hn
      constructor
      · rintro ⟨n, htwice | hnever⟩
        · have honce := List.nodup_iff_count_le_one.1 hnodup n
          unfold PlacedTwice at htwice
          omega
        · exact absurd (hplaced n hnever.1) hnever.2
      · intro _ d hd hfits
        obtain ⟨m, hm, hcode, hblocks, hlocals⟩ := assemble_of_placed hrepeated hunplaced hd
          (hfits.imp_right fun h => neededLocals_lt h.1 h.2)
        exact ⟨m, hm, linked_of_placed hcount hnamed hnodup hplaced hcode hblocks hlocals⟩

/-- A loop with a jump forward and one back, and a handler over it. -/
theorem assemble_linked_loop :
    let lines : List AsmLine := [.tryBlock "loop" "end" "end" none, .label "loop",
      .jump .goto "end", .instr (.var (.store .long) 1), .jump .goto "loop", .label "end",
      .instr (.simple (.return_ none))]
    (∀ line ∈ lines, line.ByName) ∧ (mentionedIn lines).toFinset.card < 2 ^ 32 ∧
      ∃ m, assemble Access.static "m" "()V" lines = .ok m ∧ AssembledFrom lines m := by
  intro lines
  have hnamed : ∀ line ∈ lines, line.ByName := by
    simp [lines, AsmLine.ByName, Instr.targets]
  have hcount : (mentionedIn lines).toFinset.card < 2 ^ 32 := by decide
  have hplaced : ¬ ∃ n, PlacedTwice lines n ∨ NeverPlaced lines n := by
    rintro ⟨n, htwice | ⟨hmentioned, hnot⟩⟩
    · have hnodup : (placedIn lines).Nodup := by decide
      have := List.nodup_iff_count_le_one.1 hnodup n
      unfold PlacedTwice at htwice
      omega
    · have hall : ∀ n ∈ mentionedIn lines, n ∈ placedIn lines := by decide
      exact hnot (hall n hmentioned)
  refine ⟨hnamed, hcount, ?_⟩
  obtain ⟨-, hok⟩ := assemble_linked Access.static "m" "()V" lines hnamed hcount
  have hparse : MethodDescriptor.parse "()V" = .ok ⟨[], .void⟩ := by cbv
  exact hok hplaced _ hparse (.inr ⟨by decide, by simp [lines, Instr.touchedLocals]⟩)

end ConstRestore
