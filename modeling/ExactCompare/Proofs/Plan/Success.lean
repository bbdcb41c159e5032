import ExactCompare.Catalog.Builtin
import ExactCompare.Proofs.Catalog.Success
import ExactCompare.Proofs.Plan.Contents

/-!
# When the plan is installed

The plan is in order, and no two of its changes create the same object. None of its
objects is built in, so it can be installed in the first catalog.
-/

namespace ExactCompare

/-! ## Names and types -/

theorem ComparisonOp.mnemonic_injective {op op' : ComparisonOp} (h : op.mnemonic = op'.mnemonic) :
    op = op' := by
  revert h
  cases op <;> cases op' <;> decide

theorem ComparisonOp.mnemonic_ne_cmp (op : ComparisonOp) : op.mnemonic ≠ "cmp" := by
  cases op <;> decide

theorem InexactType.name_injective {x x' : InexactType} (h : x.name = x'.name) : x = x' := by
  revert h
  cases x <;> cases x' <;> decide

namespace OperandOrder

variable {o o' : OperandOrder} {i i' : IntegerType} {x x' : InexactType}

theorem left_ne_right (o : OperandOrder) (i : IntegerType) (x : InexactType) :
    o.left i x ≠ o.right i x := by
  cases o <;> nofun

theorem routineName_injective {word word' : String}
    (h : o.routineName i x word = o.routineName i x word') : word = word' := by
  simpa only [routineName, String.append_left_inj, String.append_right_inj] using h

theorem eq_of_key {word word' : String}
    (htypes : [o.left i x, o.right i x] = [o'.left i' x', o'.right i' x'])
    (hname : o.routineName i x word = o'.routineName i' x' word') :
    o = o' ∧ i = i' ∧ x = x' ∧ word = word' := by
  obtain ⟨hleft, hright⟩ := List.cons.inj htypes
  obtain ⟨rfl, rfl, rfl⟩ := eq_of_types hleft (List.cons.inj hright).1
  exact ⟨rfl, rfl, rfl, routineName_injective hname⟩

end OperandOrder

namespace Routine

theorem operator_key_injective {x x' : CrossOperator}
    (h : (operator x).key = (operator x').key) : x = x' := by
  obtain ⟨op, integer, inexact, order⟩ := x
  obtain ⟨op', integer', inexact', order'⟩ := x'
  obtain ⟨htypes, hname⟩ := Prod.mk.inj h
  obtain ⟨rfl, rfl, rfl, hop⟩ := OperandOrder.eq_of_key htypes hname
  obtain rfl := ComparisonOp.mnemonic_injective hop
  rfl

theorem sortSupport_key_injective {s s' : SortSupport}
    (h : (sortSupport s).key = (sortSupport s').key) : s = s' := by
  obtain ⟨integer, inexact, order⟩ := s
  obtain ⟨integer', inexact', order'⟩ := s'
  obtain ⟨htypes, hname⟩ := Prod.mk.inj h
  obtain ⟨rfl, rfl, rfl, -⟩ := OperandOrder.eq_of_key htypes hname
  rfl

theorem operator_key_ne (x : CrossOperator) (s : SortSupport) :
    (operator x).key ≠ (sortSupport s).key := by
  -- The types may be the same, and then the words between them differ.
  intro h
  obtain ⟨htypes, hname⟩ := Prod.mk.inj h
  obtain ⟨-, -, -, hword⟩ := OperandOrder.eq_of_key htypes hname
  exact x.op.mnemonic_ne_cmp hword

theorem hash_key_ne (h : HashSupport) (o : OperandOrder) (i : IntegerType) (x : InexactType)
    (name : String) : (hash h).key ≠ ([o.left i x, o.right i x], name) := by
  -- All arguments of a hash support are integers.
  obtain ⟨integer, target, extended⟩ := h
  cases extended <;> cases o <;>
    simp [key, argumentTypes, HashSupport.argumentTypes, OperandOrder.left, OperandOrder.right,
      OperandOrder.flip]

theorem hash_key_injective {h h' : HashSupport} (heq : (hash h).key = (hash h').key) : h = h' := by
  obtain ⟨integer, target, extended⟩ := h
  obtain ⟨integer', target', extended'⟩ := h'
  obtain ⟨htypes, hname⟩ := Prod.mk.inj heq
  cases extended <;> cases extended' <;>
    simp only [argumentTypes, HashSupport.argumentTypes, if_true, if_false, List.cons.injEq,
      ColumnType.integer.injEq, and_true, reduceCtorEq, and_false, Bool.false_eq_true] at htypes
  all_goals
    subst htypes
    simp only [name, HashSupport.name, String.append_left_inj, String.append_right_inj] at hname
    rw [InexactType.name_injective hname]

theorem key_injective {r r' : Routine} (h : r.key = r'.key) : r = r' := by
  cases r with
  | operator x =>
    cases r' with
    | operator x' => rw [operator_key_injective h]
    | sortSupport s' => exact absurd h (operator_key_ne x s')
    | hash h' => exact absurd h.symm (hash_key_ne h' _ _ _ _)
  | sortSupport s =>
    cases r' with
    | operator x' => exact absurd h.symm (operator_key_ne x' s)
    | sortSupport s' => rw [sortSupport_key_injective h]
    | hash h' => exact absurd h.symm (hash_key_ne h' _ _ _ _)
  | hash h' =>
    cases r' with
    | operator x' => exact absurd h (hash_key_ne h' _ _ _ _)
    | sortSupport s' => exact absurd h (hash_key_ne h' _ _ _ _)
    | hash h'' => rw [hash_key_injective h]

end Routine

/-! ## Nothing twice -/

theorem nodup_flatMap_of_eq {α β : Type} {l : List α} {f : α → List β} (hl : l.Nodup)
    (hf : ∀ a ∈ l, (f a).Nodup) (heq : ∀ a a' b, b ∈ f a → b ∈ f a' → a = a') :
    (l.flatMap f).Nodup :=
  List.nodup_flatMap.mpr ⟨hf, hl.imp fun hne b ha ha' => hne (heq _ _ b ha ha')⟩

theorem disjoint_map_of_ne {α β γ : Type} {l : List α} {l' : List β} {f : α → γ} {g : β → γ}
    (h : ∀ a ∈ l, ∀ b ∈ l', f a ≠ g b) : List.Disjoint (l.map f) (l'.map g) := by
  intro c hc hc'
  obtain ⟨a, ha, rfl⟩ := List.mem_map.mp hc
  obtain ⟨b, hb, heq⟩ := List.mem_map.mp hc'
  exact h a ha b hb heq.symm

theorem SortSupport.all_nodup : all.Nodup := by decide

theorem HashSupport.all_nodup : all.Nodup := by decide

theorem CrossOperator.all_eq : all = SortSupport.all.flatMap fun s =>
    ComparisonOp.all.map fun op => ⟨op, s.integer, s.inexact, s.order⟩ := by
  simp only [all, SortSupport.all, List.flatMap_assoc, List.flatMap_map]

theorem CrossOperator.all_nodup : all.Nodup := by
  rw [all_eq]
  refine nodup_flatMap_of_eq SortSupport.all_nodup ?_ ?_
  · intro s _
    refine List.Nodup.map ?_ (by decide)
    rintro op op' ⟨⟩
    rfl
  · rintro ⟨integer, inexact, order⟩ ⟨integer', inexact', order'⟩ x hx hx'
    obtain ⟨op, -, rfl⟩ := List.mem_map.mp hx
    obtain ⟨op', -, ⟨⟩⟩ := List.mem_map.mp hx'
    rfl

namespace Plan

variable {equality : EqualityRegistration} {change : Change}

theorem routines_nodup : routines.Nodup := by
  have hoperators : (CrossOperator.all.map Routine.operator).Nodup :=
    CrossOperator.all_nodup.map fun _ _ => Routine.operator.inj
  have hsorts : (SortSupport.all.map Routine.sortSupport).Nodup :=
    SortSupport.all_nodup.map fun _ _ => Routine.sortSupport.inj
  have hhashes : (HashSupport.all.map Routine.hash).Nodup :=
    HashSupport.all_nodup.map fun _ _ => Routine.hash.inj
  refine (hoperators.append hsorts ?_).append hhashes ?_
  · exact disjoint_map_of_ne fun _ _ _ _ => nofun
  · rw [List.disjoint_append_left]
    exact ⟨disjoint_map_of_ne fun _ _ _ _ => nofun, disjoint_map_of_ne fun _ _ _ _ => nofun⟩

/-! ### Members -/

/-- A pair of operand types, and an ordered family that it joins. -/
def btreeCells : List (FamilyName × SortSupport) :=
  IntegerType.all.flatMap fun integer =>
    InexactType.all.flatMap fun inexact =>
      [FamilyName.integer, .ofInexact inexact].flatMap fun name =>
        OperandOrder.all.map fun order => (name, ⟨integer, inexact, order⟩)

theorem btreeMembers_eq (equality : EqualityRegistration) :
    btreeMembers equality = btreeCells.flatMap fun cell =>
      btreeMembersInOrder equality cell.1 cell.2.integer cell.2.inexact cell.2.order := by
  simp only [btreeMembers, btreeCells, List.flatMap_assoc, List.flatMap_map]

theorem object_of_mem_inOrder {name : FamilyName} {integer : IntegerType} {inexact : InexactType}
    {order : OperandOrder} (h : change ∈ btreeMembersInOrder equality name integer inexact order) :
    ∃ kind number, change.object = .member (⟨.btree, name⟩,
      ⟨kind, number, order.left integer inexact, order.right integer inexact⟩) := by
  rcases List.mem_append.mp h with h | h
  · obtain ⟨op, -, hop⟩ := List.mem_filterMap.mp h
    obtain ⟨strategy, -, -, rfl⟩ := btreeOperator_eq_some_iff.mp hop
    exact ⟨.operator, strategy, rfl⟩
  · rw [List.mem_singleton.mp h]
    exact ⟨.support, 1, rfl⟩

theorem nodup_btreeMembersInOrder (equality : EqualityRegistration) (name : FamilyName)
    (integer : IntegerType) (inexact : InexactType) (order : OperandOrder) :
    ((btreeMembersInOrder equality name integer inexact order).map (·.object)).Nodup := by
  cases htakes : takesEquality equality name <;>
    simp [btreeMembersInOrder, btreeOperator, ComparisonOp.all, ComparisonOp.strategy?, htakes,
      btreeSupport, Change.object]

theorem nodup_btreeMembers (equality : EqualityRegistration) :
    ((btreeMembers equality).map (·.object)).Nodup := by
  rw [btreeMembers_eq, List.map_flatMap]
  refine nodup_flatMap_of_eq (by decide) (fun _ _ => nodup_btreeMembersInOrder _ _ _ _ _) ?_
  rintro ⟨name, integer, inexact, order⟩ ⟨name', integer', inexact', order'⟩ object h h'
  obtain ⟨change, hchange, rfl⟩ := List.mem_map.mp h
  obtain ⟨change', hchange', heq⟩ := List.mem_map.mp h'
  obtain ⟨kind, number, hobject⟩ := object_of_mem_inOrder hchange
  obtain ⟨kind', number', hobject'⟩ := object_of_mem_inOrder hchange'
  rw [heq, hobject] at hobject'
  obtain ⟨hfamily, hslot⟩ := Prod.mk.inj (Object.member.inj hobject')
  obtain ⟨-, -, hleft, hright⟩ := Slot.mk.inj hslot
  obtain ⟨rfl, rfl, rfl⟩ := OperandOrder.eq_of_types hleft hright
  obtain ⟨-, rfl⟩ := Family.mk.inj hfamily
  rfl

theorem object_of_mem_btreeMembers (h : change ∈ btreeMembers equality) :
    ∃ name kind number, ∃ s : SortSupport,
      change.object = .member (⟨.btree, name⟩, ⟨kind, number, s.left, s.right⟩) := by
  rw [btreeMembers_eq, List.mem_flatMap] at h
  obtain ⟨⟨name, s⟩, -, h⟩ := h
  obtain ⟨kind, number, hobject⟩ := object_of_mem_inOrder h
  exact ⟨name, kind, number, s, hobject⟩

theorem nodup_members (equality : EqualityRegistration) :
    ((members equality).map (·.object)).Nodup := by
  have hoperators : (hashOperators.map (·.object)).Nodup := by decide
  have hsupports : (hashSupports.map (·.object)).Nodup := by decide
  rw [members, List.map_append, List.map_append]
  refine ((nodup_btreeMembers equality).append hoperators ?_).append hsupports ?_
  · refine disjoint_map_of_ne fun change hchange _ hchange' heq => ?_
    obtain ⟨name, kind, number, s, hobject⟩ := object_of_mem_btreeMembers hchange
    obtain ⟨x, -, rfl⟩ := mem_hashOperators_iff.mp hchange'
    rw [hobject] at heq
    cases heq
  · rw [List.disjoint_append_left]
    refine ⟨disjoint_map_of_ne fun change hchange _ hchange' heq => ?_,
      disjoint_map_of_ne fun _ hchange _ hchange' heq => ?_⟩
    · obtain ⟨name, kind, number, s, hobject⟩ := object_of_mem_btreeMembers hchange
      obtain ⟨support, -, rfl⟩ := mem_hashSupports_iff.mp hchange'
      rw [hobject] at heq
      cases heq
    · obtain ⟨x, -, rfl⟩ := mem_hashOperators_iff.mp hchange
      obtain ⟨support, -, rfl⟩ := mem_hashSupports_iff.mp hchange'
      simp [hashSupport, Change.object] at heq

/-! ### The whole plan -/

theorem object_of_mem_functions (h : change ∈ routines.map .createFunction) :
    ∃ key, change.object = .function key := by
  obtain ⟨r, -, rfl⟩ := List.mem_map.mp h
  exact ⟨r.key, rfl⟩

theorem object_of_mem_operators (h : change ∈ operators) :
    ∃ s, change.object = .operator s := by
  obtain ⟨x, rfl⟩ := mem_operators_iff.mp h
  exact ⟨x.signature, rfl⟩

theorem object_of_mem_members (h : change ∈ members equality) :
    ∃ place, change.object = .member place := by
  have hmember := isMember_of_mem_members h
  cases change with
  | createFunction => cases hmember
  | createOperator => cases hmember
  | addOperator => exact ⟨_, rfl⟩
  | addSupport => exact ⟨_, rfl⟩

theorem nodup_changes (equality : EqualityRegistration) :
    ((changes equality).map (·.object)).Nodup := by
  have hfunctions : ((routines.map Change.createFunction).map (·.object)).Nodup := by
    rw [List.map_map]
    exact routines_nodup.map fun _ _ h => Routine.key_injective (Object.function.inj h)
  have hoperators : (operators.map (·.object)).Nodup := by
    rw [operators, List.map_map]
    exact CrossOperator.all_nodup.map fun _ _ h =>
      CrossOperator.signature_injective (Object.operator.inj h)
  rw [changes_eq, List.map_append, List.map_append]
  refine hfunctions.append (hoperators.append (nodup_members equality) ?_) ?_
  · refine disjoint_map_of_ne fun change hchange change' hchange' heq => ?_
    obtain ⟨s, hs⟩ := object_of_mem_operators hchange
    obtain ⟨place, hplace⟩ := object_of_mem_members hchange'
    rw [hs, hplace] at heq
    cases heq
  · rw [List.disjoint_append_right]
    refine ⟨disjoint_map_of_ne fun change hchange change' hchange' heq => ?_,
      disjoint_map_of_ne fun change hchange change' hchange' heq => ?_⟩
    all_goals obtain ⟨key, hkey⟩ := object_of_mem_functions hchange
    · obtain ⟨s, hs⟩ := object_of_mem_operators hchange'
      rw [hkey, hs] at heq
      cases heq
    · obtain ⟨place, hplace⟩ := object_of_mem_members hchange'
      rw [hkey, hplace] at heq
      cases heq

theorem ordered_changes (equality : EqualityRegistration) :
    Catalog.Ordered (changes equality) := by
  have hfunctions : Catalog.Ordered ([] ++ routines.map Change.createFunction) := by
    refine Catalog.Ordered.nil.append fun change hchange => ?_
    obtain ⟨r, -, rfl⟩ := List.mem_map.mp hchange
    exact ⟨nofun, nofun⟩
  rw [List.nil_append] at hfunctions
  rw [changes_eq, ← List.append_assoc]
  refine (hfunctions.append fun _ => refersTo_of_mem_operators).append fun _ => ?_
  exact refersTo_of_mem_members

theorem exists_createExtension_iff {c : Catalog} {owner : Identifier} :
    (∃ c', c.createExtension (batch owner equality) = .ok c') ↔
      owner ∉ c.extensions ∧ ∀ change ∈ changes equality, change.object ∉ c.objects :=
  Catalog.exists_createExtension_iff (ordered_changes equality) (nodup_changes equality)

/-! ## The first catalog -/

theorem key_not_mem_bootstrap (r : Routine) : r.key ∉ Catalog.bootstrap.functions.map (·.key) := by
  have hpairs : ∀ f ∈ Catalog.bootstrap.functions, ∀ s ∈ SortSupport.all,
      f.argumentTypes = [s.left, s.right] → ∀ word ∈ "cmp" :: ComparisonOp.all.map (·.mnemonic),
        f.name ≠ s.order.routineName s.integer s.inexact word := by decide +kernel
  have hhashes : ∀ f ∈ Catalog.bootstrap.functions, ∀ h ∈ HashSupport.all,
      f.key ≠ (Routine.hash h).key := by decide +kernel
  intro hmem
  obtain ⟨f, hf, hkey⟩ := List.mem_map.mp hmem
  obtain ⟨htypes, hname⟩ := Prod.mk.inj hkey
  cases r with
  | operator x =>
    refine hpairs f hf ⟨x.integer, x.inexact, x.order⟩ (SortSupport.mem_all _) htypes
      x.op.mnemonic ?_ hname
    exact List.mem_cons_of_mem _ (List.mem_map_of_mem x.op.mem_all)
  | sortSupport s => exact hpairs f hf s s.mem_all htypes "cmp" List.mem_cons_self hname
  | hash h => exact hhashes f hf h h.mem_all hkey

theorem signature_not_mem_bootstrap (x : CrossOperator) :
    x.signature ∉ Catalog.bootstrap.operators.map (·.signature) := by
  have hsame : ∀ o ∈ Catalog.bootstrap.operators, o.signature.left = o.signature.right := by
    decide +kernel
  intro hmem
  obtain ⟨o, ho, hsignature⟩ := List.mem_map.mp hmem
  have hleft := hsame o ho
  rw [hsignature] at hleft
  exact x.order.left_ne_right x.integer x.inexact hleft

theorem findOperator?_bootstrap (x : CrossOperator) :
    Catalog.bootstrap.findOperator? x.signature = none := by
  have hfree := signature_not_mem_bootstrap x
  rwa [← Catalog.findOperator?_isSome_iff, Option.not_isSome_iff_eq_none] at hfree

theorem place_not_mem_bootstrap (h : change ∈ members equality) {place : Family × Slot}
    (hobject : change.object = .member place) :
    place ∉ Catalog.bootstrap.members.map (·.place) := by
  have hsame : ∀ m ∈ Catalog.bootstrap.members, m.slot.left = m.slot.right := by decide +kernel
  have hfamily : ∀ m ∈ Catalog.bootstrap.members,
      m.slot.left.integerType?.isSome → m.family.name = .integer := by decide +kernel
  intro hmem
  obtain ⟨m, hm, rfl⟩ := List.mem_map.mp hmem
  rcases List.mem_append.mp h with h | h
  · rcases List.mem_append.mp h with h | h
    · obtain ⟨name, kind, number, s, hobject'⟩ := object_of_mem_btreeMembers h
      obtain ⟨-, hslot⟩ := Prod.mk.inj (Object.member.inj (hobject.symm.trans hobject'))
      have hleft := hsame m hm
      rw [hslot] at hleft
      exact s.order.left_ne_right s.integer s.inexact hleft
    · obtain ⟨x, -, rfl⟩ := mem_hashOperators_iff.mp h
      obtain ⟨-, hslot⟩ := Prod.mk.inj (Object.member.inj hobject)
      have hleft := hsame m hm
      rw [← hslot] at hleft
      exact x.order.left_ne_right x.integer x.inexact hleft
  · obtain ⟨support, -, rfl⟩ := mem_hashSupports_iff.mp h
    obtain ⟨hplace, hslot⟩ := Prod.mk.inj (Object.member.inj hobject)
    have hname := hfamily m hm
    rw [← hslot, ← hplace] at hname
    have hinteger : FamilyName.ofInexact support.target = .integer := hname rfl
    cases htarget : support.target <;> rw [htarget] at hinteger <;> cases hinteger

theorem object_not_mem_bootstrap (h : change ∈ changes equality) :
    change.object ∉ Catalog.bootstrap.objects := by
  rw [changes_eq] at h
  rcases List.mem_append.mp h with h | h
  · obtain ⟨r, -, rfl⟩ := List.mem_map.mp h
    exact mt Catalog.function_mem_objects.mp (key_not_mem_bootstrap r)
  · rcases List.mem_append.mp h with h | h
    · obtain ⟨x, rfl⟩ := mem_operators_iff.mp h
      exact mt Catalog.operator_mem_objects.mp (signature_not_mem_bootstrap x)
    · obtain ⟨place, hobject⟩ := object_of_mem_members h
      rw [hobject]
      exact mt Catalog.member_mem_objects.mp (place_not_mem_bootstrap h hobject)

theorem exists_createExtension_bootstrap (owner : Identifier) (equality : EqualityRegistration) :
    ∃ c, Catalog.bootstrap.createExtension (batch owner equality) = .ok c :=
  exists_createExtension_iff.mpr ⟨List.not_mem_nil, fun _ => object_not_mem_bootstrap⟩

end Plan

end ExactCompare
