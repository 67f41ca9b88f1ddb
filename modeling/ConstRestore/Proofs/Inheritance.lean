/-
  Inherited bindings.

  A call uses the bindings of the first class, among its owner and all that is
  above it, that declares some.  Here a search is the recursive walk that it
  stands for (`Registry.Walk`): a class, then all that is above its first
  supertype, then what is left above the second one, with one set of visited
  classes for all branches.

  * `walk_iff`: a search in preorder is this walk, cyclic hierarchies included;
  * `Bindings.get?_methods_build`: a method has the groups that it was last
    declared with, whatever was looked up in between;
  * `Bindings.lookup_current`: so does every call, although answers are
    remembered for classes below the one that a later declaration is about.
-/
import ConstRestore.Proofs.Hierarchy
import ConstRestore.Proofs.Interleaving

namespace ConstRestore

/-! ## Walks -/

namespace Registry

variable {r : Registry} {next : ClassInfo → List String} {x : String} {xs ys l l' : List String}
  {visited : Set String}

/-- What a registered class leads to; an unregistered one leads nowhere. -/
def above (r : Registry) (next : ClassInfo → List String) (x : String) : List String :=
  ((r.info? x).map next).getD []

/-- What a walk lists that goes through classes one after the other, each with all that is above
    it before the next one.  Classes that were visited in one branch are left out in the others. -/
inductive Walk (r : Registry) (next : ClassInfo → List String) :
    Set String → List String → List String → Prop
  | nil (visited : Set String) : Walk r next visited [] []
  | skip {visited : Set String} {x : String} {xs l : List String} (hx : x ∈ visited)
      (hrest : Walk r next visited xs l) : Walk r next visited (x :: xs) l
  | visit {visited : Set String} {x : String} {xs l l' : List String} (hx : x ∉ visited)
      (habove : Walk r next (insert x visited) (r.above next x) l)
      (hrest : Walk r next (insert x visited ∪ {y | y ∈ l}) xs l') :
      Walk r next visited (x :: xs) (x :: (l ++ l'))

/-- A walk through two lists is one through the first and one through the second that knows what
    the first one visited. -/
theorem Walk.of_append (h : r.Walk next visited (xs ++ ys) l) :
    ∃ l₁ l₂, l = l₁ ++ l₂ ∧ r.Walk next visited xs l₁ ∧
      r.Walk next (visited ∪ {y | y ∈ l₁}) ys l₂ := by
  generalize hpending : xs ++ ys = pending at h
  induction h generalizing xs with
  | nil visited =>
    obtain ⟨rfl, rfl⟩ := List.append_eq_nil_iff.1 hpending
    exact ⟨[], [], rfl, .nil _, .nil _⟩
  | @skip visited x rest l hx hrest ih =>
    cases xs with
    | nil =>
      obtain rfl : ys = x :: rest := hpending
      exact ⟨[], l, rfl, .nil _, by simpa using Walk.skip hx hrest⟩
    | cons x' xs =>
      obtain ⟨rfl, rfl⟩ := List.cons.inj hpending
      obtain ⟨l₁, l₂, rfl, hxs, hys⟩ := ih rfl
      exact ⟨l₁, l₂, rfl, .skip hx hxs, hys⟩
  | @visit visited x rest l l' hx habove hrest _ ih =>
    cases xs with
    | nil =>
      obtain rfl : ys = x :: rest := hpending
      exact ⟨[], _, rfl, .nil _, by simpa using Walk.visit hx habove hrest⟩
    | cons x' xs =>
      obtain ⟨rfl, rfl⟩ := List.cons.inj hpending
      obtain ⟨l₁, l₂, rfl, hxs, hys⟩ := ih rfl
      have hvisited : visited ∪ {y | y ∈ x' :: (l ++ l₁)} =
          insert x' visited ∪ {y | y ∈ l} ∪ {y | y ∈ l₁} := by
        ext y
        simp only [Set.mem_union, Set.mem_ofPred_eq, List.mem_cons, List.mem_append, Set.mem_insert_iff]
        tauto
      exact ⟨x' :: (l ++ l₁), l₂, by simp, .visit hx habove hxs, hvisited ▸ hys⟩

theorem Walk.unique (h : r.Walk next visited xs l) (h' : r.Walk next visited xs l') : l = l' := by
  induction h generalizing l' with
  | nil =>
    cases h'
    rfl
  | skip hx _ ih =>
    cases h' with
    | skip _ hrest => exact ih hrest
    | visit hx' => exact absurd hx hx'
  | visit hx _ _ ihabove ihrest =>
    cases h' with
    | skip hx' => exact absurd hx' hx
    | visit _ habove hrest =>
      obtain rfl := ihabove habove
      rw [ihrest hrest]

theorem walk_preorderFrom (r : Registry) (d : Direction) (pending visited : List String) :
    r.Walk d.next {x | x ∈ visited} pending (r.preorderFrom d pending visited) := by
  induction pending, visited using preorderFrom.induct r d with
  | case1 visited =>
    rw [preorderFrom_nil]
    exact .nil _
  | case2 x pending visited hx ih =>
    rw [preorderFrom_cons, if_pos hx]
    exact .skip hx ih
  | case3 x pending visited hx hc ih =>
    have hinsert : {y | y ∈ x :: visited} = insert x {y | y ∈ visited} := by
      ext y
      simp
    rw [preorderFrom_cons, if_neg hx, hc]
    rw [hinsert] at ih
    exact .visit (l := []) hx (by simpa [above, hc] using Walk.nil _) (by simpa using ih)
  | case4 x pending visited hx c hc ih =>
    have hinsert : {y | y ∈ x :: visited} = insert x {y | y ∈ visited} := by
      ext y
      simp
    rw [preorderFrom_cons, if_neg hx, hc]
    rw [hinsert] at ih
    obtain ⟨l, l', hl, habove, hrest⟩ := ih.of_append
    simp only [Option.map_some, Option.getD_some, hl]
    exact .visit hx (by simpa [above, hc] using habove) hrest

/-- A search lists the classes as a walk from its start does. -/
theorem walk_iff {d : Direction} : r.Walk d.next ∅ [x] l ↔ l = r.preorder d x := by
  have h : r.Walk d.next ∅ [x] (r.preorder d x) := by
    simpa [preorder] using walk_preorderFrom r d [x] []
  exact ⟨fun h' => h'.unique h, fun hl => hl ▸ h⟩

theorem Walk.not_mem (h : r.Walk next visited xs l) : ∀ y ∈ l, y ∉ visited := by
  induction h with
  | nil => simp
  | skip _ _ ih => exact ih
  | visit hx _ _ ihabove ihrest =>
    intro y hy hvisited
    rcases List.mem_cons.1 hy with rfl | hy
    · exact hx hvisited
    rcases List.mem_append.1 hy with hy | hy
    · exact ihabove y hy (.inr hvisited)
    · exact ihrest y hy (.inl (.inr hvisited))

/-- A walk visits each class once. -/
theorem Walk.nodup (h : r.Walk next visited xs l) : l.Nodup := by
  induction h with
  | nil => exact .nil
  | skip _ _ ih => exact ih
  | @visit visited x xs l l' hx habove hrest ihabove ihrest =>
    refine List.nodup_cons.2 ⟨fun hmem => ?_, List.nodup_append.2 ⟨ihabove, ihrest, ?_⟩⟩
    · rcases List.mem_append.1 hmem with hmem | hmem
      · exact habove.not_mem x hmem (.inl rfl)
      · exact hrest.not_mem x hmem (.inl (.inl rfl))
    · rintro y hy z hz rfl
      exact hrest.not_mem y hz (.inr hy)

end Registry

/-! ## Declarations -/

namespace BindingStep

/-- Binds something of the method. -/
def Declares (m : Member) : BindingStep → Prop
  | declareParam m' _ _ | declareReturn m' _ => m' = m
  | declareField _ _ | lookup _ => False

/-- The group that a parameter of the method is bound to. -/
def paramGroup? (m : Member) (index : Nat) : BindingStep → Option String
  | declareParam m' index' group => if m' = m ∧ index' = index then some group else none
  | _ => none

/-- The group that the result of the method is bound to. -/
def returnGroup? (m : Member) : BindingStep → Option String
  | declareReturn m' group => if m' = m then some group else none
  | _ => none

end BindingStep

/-- The groups of a method are those that it was last declared with. -/
structure MethodBinding.Current (b : MethodBinding) (steps : List BindingStep) (m : Member) :
    Prop where
  params : ∀ index, b.params.get? index = (steps.filterMap (·.paramGroup? m index)).getLast?
  ret : b.ret = (steps.filterMap (·.returnGroup? m)).getLast?

namespace Bindings

variable {r : Registry} {steps : List BindingStep} {m : Member}

theorem build_concat (r : Registry) (steps : List BindingStep) (step : BindingStep) :
    build r (steps ++ [step]) = (build r steps).after r step := by
  rw [build, build, List.foldl_append, List.foldl_cons, List.foldl_nil]

/-- The groups that a method has been bound to so far. -/
def groupsOf (t : Bindings) (m : Member) : MethodBinding := (t.methods.get? m).getD .empty

theorem get?_declareMethod (t : Bindings) (m m' : Member) (f : MethodBinding → MethodBinding) :
    (t.declareMethod m' f).methods.get? m =
      if m = m' then some (f (t.groupsOf m')) else t.methods.get? m :=
  Table.get?_set ..

theorem methods_remember (r : Registry) (t : Bindings) (m : Member) :
    (t.remember r m).methods = t.methods := by
  unfold remember
  split_ifs <;> rfl

theorem isSome_get?_after (t : Bindings) (step : BindingStep) (m : Member) :
    ((t.after r step).methods.get? m).isSome ↔ (t.methods.get? m).isSome ∨ step.Declares m := by
  cases step with
  | declareField => simp [after, declareField, BindingStep.Declares]
  | lookup => simp [after, methods_remember, BindingStep.Declares]
  | declareParam m' | declareReturn m' =>
    simp only [after, declareParam, declareReturn, get?_declareMethod, BindingStep.Declares]
    split_ifs with h
    · simp [h]
    · simp [Ne.symm h]

/-- A call binds a parameter anew or leaves it. -/
theorem get?_params_after (t : Bindings) (step : BindingStep) (m : Member) (index : Nat) :
    ((t.after r step).groupsOf m).params.get? index =
      (step.paramGroup? m index).or ((t.groupsOf m).params.get? index) := by
  cases step with
  | declareField => rfl
  | lookup => simp [after, groupsOf, methods_remember, BindingStep.paramGroup?]
  | declareReturn m' =>
    simp only [after, declareReturn, groupsOf, get?_declareMethod, BindingStep.paramGroup?]
    split_ifs with h <;> simp [h]
  | declareParam m' index' group =>
    simp only [after, declareParam, groupsOf, get?_declareMethod, BindingStep.paramGroup?]
    by_cases h : m = m'
    · subst h
      by_cases hi : index = index' <;> simp [Table.get?_set, hi, eq_comm]
    · simp [h, Ne.symm h]

/-- A call binds a result anew or leaves it. -/
theorem ret_after (t : Bindings) (step : BindingStep) (m : Member) :
    ((t.after r step).groupsOf m).ret = (step.returnGroup? m).or (t.groupsOf m).ret := by
  cases step with
  | declareField => rfl
  | lookup => simp [after, groupsOf, methods_remember, BindingStep.returnGroup?]
  | declareParam m' =>
    simp only [after, declareParam, groupsOf, get?_declareMethod, BindingStep.returnGroup?]
    split_ifs with h <;> simp [h]
  | declareReturn m' group =>
    simp only [after, declareReturn, groupsOf, get?_declareMethod, BindingStep.returnGroup?]
    by_cases h : m = m'
    · simp [h]
    · simp [h, Ne.symm h]

theorem getLast?_filterMap_concat {α : Type} (f : BindingStep → Option α) (steps : List BindingStep)
    (step : BindingStep) : ((steps ++ [step]).filterMap f).getLast? =
      (f step).or (steps.filterMap f).getLast? := by
  rw [List.filterMap_append]
  cases h : f step <;> simp [h]

theorem current_groupsOf (r : Registry) (steps : List BindingStep) (m : Member) :
    ((build r steps).groupsOf m).Current steps m := by
  induction steps using List.reverseRecOn with
  | nil => exact ⟨fun _ => rfl, rfl⟩
  | append_singleton steps step ih =>
    rw [build_concat]
    constructor
    · intro index
      rw [get?_params_after, ih.params, getLast?_filterMap_concat]
    · rw [ret_after, ih.ret, getLast?_filterMap_concat]

theorem isSome_get?_build (r : Registry) (steps : List BindingStep) (m : Member) :
    ((build r steps).methods.get? m).isSome ↔ ∃ step ∈ steps, step.Declares m := by
  induction steps using List.reverseRecOn with
  | nil => exact iff_of_false Bool.false_ne_true (by simp)
  | append_singleton steps step ih =>
    simp [build_concat, isSome_get?_after, ih, or_and_right, exists_or]

/-- A method has bindings once it was declared, and those that it was last declared with. -/
theorem get?_methods_build {b : MethodBinding} (h : (build r steps).methods.get? m = some b) :
    (∃ step ∈ steps, step.Declares m) ∧ b.Current steps m := by
  have hcurrent := current_groupsOf r steps m
  rw [groupsOf, h] at hcurrent
  exact ⟨(isSome_get?_build r steps m).1 (by simp [h]), hcurrent⟩

/-- **Remembered answers are current.**  Whatever was declared and looked up before, a lookup finds
    nothing exactly if no class that can be reached from the owner declares the method, and
    otherwise what the first one in depth-first preorder that does was last declared with. -/
theorem lookup_current (r : Registry) (steps : List BindingStep) (m : Member) :
    ∃ order, r.Walk ClassInfo.supertypes ∅ [m.owner] order ∧ order.Nodup ∧
      (∀ owner, owner ∈ order ↔ r.Extends m.owner owner) ∧
      ((build r steps).lookup r m = none ↔
        ∀ owner, r.Extends m.owner owner → ∀ step ∈ steps, ¬step.Declares { m with owner }) ∧
      ∀ b, (build r steps).lookup r m = some b → ∃ before owner after,
        order = before ++ owner :: after ∧
        (∀ earlier ∈ before, ∀ step ∈ steps, ¬step.Declares { m with owner := earlier }) ∧
        (∃ step ∈ steps, step.Declares { m with owner }) ∧ b.Current steps { m with owner } := by
  have hwalk : r.Walk ClassInfo.supertypes ∅ [m.owner] (r.preorder .supertypes m.owner) :=
    Registry.walk_iff (d := .supertypes) |>.2 rfl
  have hundeclared (owner : String) : (build r steps).methods.get? { m with owner } = none ↔
      ∀ step ∈ steps, ¬step.Declares { m with owner } := by
    rw [← Option.not_isSome_iff_eq_none, isSome_get?_build]
    simp
  refine ⟨_, hwalk, hwalk.nodup, fun _ => Registry.mem_preorder_iff, ?_, fun b hb => ?_⟩
  · rw [(sound_build r steps).lookup_eq, declaredFor?_eq, List.findSome?_eq_none_iff]
    simp only [hundeclared, Registry.mem_preorder_iff, Direction.next, Registry.Extends]
  · rw [(sound_build r steps).lookup_eq, declaredFor?_eq] at hb
    obtain ⟨before, owner, after, horder, hfound, hbefore⟩ := List.findSome?_eq_some_iff.1 hb
    exact ⟨before, owner, after, horder, fun earlier hearlier =>
      (hundeclared earlier).1 (hbefore earlier hearlier), get?_methods_build hfound⟩

/-- A miss that is remembered for a class does not hide a later declaration above it. -/
example :
    let r : Registry := ClassRegistry.empty.addInfo ⟨"p/Sub", some "p/Base", [], false, none⟩
    ((build r [.declareReturn ⟨"p/Other", "f", "()I"⟩ "color", .lookup ⟨"p/Sub", "f", "()I"⟩,
      .declareReturn ⟨"p/Base", "f", "()I"⟩ "mode"]).lookup r ⟨"p/Sub", "f", "()I"⟩).map (·.ret) =
        some (some "mode") := by
  cbv

end Bindings

end ConstRestore
