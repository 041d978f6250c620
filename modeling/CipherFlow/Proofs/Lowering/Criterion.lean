import CipherFlow.Proofs.Lowering.Image
import CipherFlow.Proofs.Network.Cycles

/-!
# Which graphs are lowered

Any graph, well made or not, is lowered exactly if each of its nodes is accepted
(`Dataflow.Accepted`): an input has a type, and any other node has a plan whose operands have the
types that it takes, and is not behind a cycle. The condition does not mention the order in which
the nodes are lowered. For that, the type of a value is read off its node alone
(`Dataflow.valueTy?`). Main statement: `Dataflow.exists_lower_iff_accepted`.
-/

set_option autoImplicit false

namespace CipherFlow

/-! ## Plans and types -/

namespace Plan

/-- The type of the value that a plan adds. -/
def ty : Plan → Ty
  | constant literal => literal.ty
  | primitive _ width _ _ => .encrypted width
  | lookup _ width _ => .encrypted width

/-- The nodes whose values a plan takes. -/
def operands : Plan → List Nat
  | constant _ => []
  | primitive _ _ left right => [left, right]
  | lookup _ _ operand => [operand]

/-- The operands have types that the plan takes. -/
def Typed (type? : Nat → Option Ty) : Plan → Prop
  | constant _ => True
  | primitive p width left right => ∃ l r, type? left = some l ∧ type? right = some r ∧
      p.checkTypes (.encrypted width) l r = .ok ()
  | lookup _ _ operand => ∃ w, type? operand = some (.encrypted w)

/-- Only the types of its operands matter to a plan. -/
theorem Typed.congr {type? type?' : Nat → Option Ty} {plan : Plan} (h : plan.Typed type?)
    (hsame : ∀ m ∈ plan.operands, ∀ t, type? m = some t → type?' m = some t) :
    plan.Typed type?' := by
  cases plan with
  | constant literal => trivial
  | primitive p width left right =>
      obtain ⟨l, r, hl, hr, hcheck⟩ := h
      have hl' := hsame left (by simp [operands]) l hl
      have hr' := hsame right (by simp [operands]) r hr
      exact ⟨l, r, hl', hr', hcheck⟩
  | lookup table width operand =>
      obtain ⟨w, hw⟩ := h
      exact ⟨w, hsame operand (by simp [operands]) _ hw⟩

/-- A plan takes the values of operands of its node. -/
theorem operands_subset {options : Options} {node : Node} {ops : List Nat} {plan : Plan}
    (h : node.plan options ops = .ok plan) : plan.operands ⊆ ops := by
  intro m hm
  cases Node.plan_eq_ok_iff.1 h with
  | constant => cases hm
  | @binary op left right output l r rule =>
      cases horder : rule.order <;>
        simpa [horder, operands, Arrangement.apply, or_comm] using hm
  | lookup => exact hm

end Plan

/-- The type of the value that a node has so far. -/
def Progress.type? (p : Progress) (n : Nat) : Option Ty :=
  (p.registry.find? n).bind p.routine.type?

theorem Progress.type?_eq_some_iff {p : Progress} {n : Nat} {t : Ty} :
    p.type? n = some t ↔ ∃ v, p.registry.find? n = some v ∧ p.routine.type? v = some t :=
  Option.bind_eq_some_iff

namespace Plan

variable {p p' : Progress} {plan : Plan}

/-- In an open routine a plan is carried out exactly if its operands have types that it takes. -/
theorem exists_emit_iff (hopen : p.routine.returned = none) :
    (∃ v p', plan.emit p = .ok v p') ↔ plan.Typed p.type? := by
  cases plan with
  | constant literal =>
      have hok : (Plan.constant literal).emit p = .ok _ _ :=
        Lowering.emit_constant_eq_ok_iff.2 ⟨hopen, rfl, rfl⟩
      exact iff_of_true ⟨_, _, hok⟩ trivial
  | primitive q width left right =>
      constructor
      · rintro ⟨v, p', h⟩
        obtain ⟨l, r, hl, hr, hcheck, -, -⟩ := emit_primitive_eq_ok_iff.1 h
        obtain ⟨-, lt, rt, hlt, hrt, htypes⟩ := Routine.types_of_checkPrimitive hcheck
        exact ⟨lt, rt, Progress.type?_eq_some_iff.2 ⟨l, hl, hlt⟩,
          Progress.type?_eq_some_iff.2 ⟨r, hr, hrt⟩, htypes⟩
      · rintro ⟨lt, rt, hl, hr, htypes⟩
        obtain ⟨l, hl, hlt⟩ := Progress.type?_eq_some_iff.1 hl
        obtain ⟨r, hr, hrt⟩ := Progress.type?_eq_some_iff.1 hr
        have hcheck : p.routine.checkPrimitive q (.encrypted width) l r = .ok () :=
          (Routine.checkPrimitive_eq_checkTypes hopen hlt hrt).trans htypes
        exact ⟨_, _, emit_primitive_eq_ok_iff.2 ⟨l, r, hl, hr, hcheck, rfl, rfl⟩⟩
  | lookup table width operand =>
      constructor
      · rintro ⟨v, p', h⟩
        obtain ⟨index, w, hindex, hw, -⟩ := emit_lookup_eq_ok_iff.1 h
        exact ⟨w, Progress.type?_eq_some_iff.2 ⟨index, hindex, hw⟩⟩
      · rintro ⟨w, hw⟩
        obtain ⟨index, hindex, hw⟩ := Progress.type?_eq_some_iff.1 hw
        exact ⟨_, _, emit_lookup_eq_ok_iff.2 ⟨index, w, hindex, hw, hopen, rfl, rfl⟩⟩

/-- The value that a plan adds has the type of the plan. -/
theorem type?_of_emit {v : Nat} (h : plan.emit p = .ok v p') :
    p'.routine.type? v = some plan.ty := by
  cases plan with
  | constant literal =>
      obtain ⟨-, rfl, rfl⟩ := Lowering.emit_constant_eq_ok_iff.1 h
      exact Routine.type?_of_instruction? (Routine.instruction?_push_size _ _)
  | primitive q width left right =>
      obtain ⟨l, r, -, -, -, rfl, rfl⟩ := emit_primitive_eq_ok_iff.1 h
      exact Routine.type?_of_instruction? (Routine.instruction?_push_size _ _)
  | lookup table width operand =>
      obtain ⟨index, w, -, -, -, rfl, rfl⟩ := emit_lookup_eq_ok_iff.1 h
      rw [← Routine.size_push p.routine]
      exact Routine.type?_of_instruction? (Routine.instruction?_push_size _ _)

end Plan

namespace Dataflow

variable {g : Dataflow} {options : Options}

/-! ## Accepted graphs -/

/-- The type of the value of a node: that of the argument for an input, and that of its plan for any
other node. -/
def valueTy? (g : Dataflow) (options : Options) (n : Nat) : Option Ty :=
  (g.network.node? n).bind fun node =>
    if n ∈ g.inputs then node.argumentTy.toOption
    else (node.plan options (g.operands n)).toOption.map Plan.ty

theorem valueTy?_of_mem_inputs {n : Nat} {node : Node} {ty : Ty}
    (hnode : g.network.node? n = some node) (hn : n ∈ g.inputs) (hty : node.argumentTy = .ok ty) :
    g.valueTy? options n = some ty := by
  rw [valueTy?, hnode, Option.bind_some, if_pos hn, hty]
  rfl

theorem valueTy?_of_plan {n : Nat} {node : Node} {plan : Plan}
    (hnode : g.network.node? n = some node) (hn : n ∉ g.inputs)
    (hplan : node.plan options (g.operands n) = .ok plan) :
    g.valueTy? options n = some plan.ty := by
  rw [valueTy?, hnode, Option.bind_some, if_neg hn, hplan]
  rfl

/-- The node becomes a value. -/
inductive Accepts (g : Dataflow) (options : Options) (n : Nat) : Prop
  /-- An input has a type. -/
  | input {node : Node} {ty : Ty} (hn : n ∈ g.inputs) (hnode : g.network.node? n = some node)
      (hty : node.argumentTy = .ok ty) : Accepts g options n
  /-- Any other node has a plan that takes the types of its operands, and is not behind a cycle. -/
  | plan {node : Node} {plan : Plan} (hn : n ∉ g.inputs) (hgrounded : g.network.Grounded n)
      (hnode : g.network.node? n = some node)
      (hplan : node.plan options (g.operands n) = .ok plan)
      (htyped : plan.Typed (g.valueTy? options)) : Accepts g options n

/-- The graphs that are lowered. -/
structure Accepted (g : Dataflow) (options : Options) : Prop where
  nodup_inputs : g.inputs.Nodup
  inputs_present : ∀ n ∈ g.inputs, g.network.hasNode n = true
  outputs_present : ∀ n ∈ g.outputs, g.network.hasNode n = true
  accepts : ∀ n, g.network.hasNode n = true → g.Accepts options n

/-! ## The invariant -/

/-- The nodes that have values are accepted, and their values have the types of the nodes. -/
def Conforms (g : Dataflow) (options : Options) (p : Progress) : Prop :=
  ∀ n v, p.registry.find? n = some v →
    g.Accepts options n ∧ ∃ t, p.routine.type? v = some t ∧ g.valueTy? options n = some t

theorem conforms_initialProgress : g.Conforms options (initialProgress options) := by
  intro n v h
  cases h

/-- One more node gets a value. -/
theorem Conforms.grow {p : Progress} {r : Routine} {n v : Nat} {t : Ty}
    (h : g.Conforms options p) (hr : p.routine.ExtendedBy r) (haccepts : g.Accepts options n)
    (htype : r.type? v = some t) (hty : g.valueTy? options n = some t) :
    g.Conforms options ⟨r, p.registry.add n v⟩ := by
  intro m w hm
  rcases Registry.eq_or_find?_of_find?_add hm with ⟨rfl, rfl⟩ | hm
  · exact ⟨haccepts, t, htype, hty⟩
  · obtain ⟨haccepts', t', htype', hty'⟩ := h m w hm
    exact ⟨haccepts', t', hr.type? htype', hty'⟩

theorem Conforms.valueTy?_eq {p : Progress} (h : g.Conforms options p) {n : Nat} {t : Ty}
    (hn : p.type? n = some t) : g.valueTy? options n = some t := by
  obtain ⟨v, hv, ht⟩ := Progress.type?_eq_some_iff.1 hn
  obtain ⟨-, t', ht', hty⟩ := h n v hv
  rw [ht] at ht'
  cases ht'
  exact hty

theorem Conforms.type?_eq {p : Progress} (h : g.Conforms options p) {n v : Nat} {t : Ty}
    (hv : p.registry.find? n = some v) (hn : g.valueTy? options n = some t) :
    p.type? n = some t := by
  obtain ⟨-, t', ht', hty⟩ := h n v hv
  rw [hn] at hty
  cases hty
  exact Progress.type?_eq_some_iff.2 ⟨v, hv, ht'⟩

theorem Conforms.lowerInput {n : Nat} {p p' : Progress} {u : Unit} (h : g.Conforms options p)
    (hn : n ∈ g.inputs) (hstep : g.lowerInput n p = .ok u p') : g.Conforms options p' := by
  obtain ⟨node, ty, hnode, hty, -, -, rfl⟩ := lowerInput_eq_ok_iff.1 hstep
  refine h.grow (p.routine.extendedBy_push _) (.input hn hnode hty) ?_
    (valueTy?_of_mem_inputs hnode hn hty)
  exact Routine.type?_of_instruction? (Routine.instruction?_push_size _ _)

/-- The inputs have values once they are arguments. -/
theorem Tracks.exists_value_of_mem {name : String} {inputs : List Nat} {p : Progress}
    (h : g.Tracks name inputs p) {n : Nat} (hn : n ∈ inputs) :
    ∃ v, p.registry.find? n = some v := by
  obtain ⟨i, hi⟩ := List.mem_iff_getElem?.1 hn
  exact ⟨i, (h.value_input i n hi).1⟩

theorem Conforms.lowerVisited {name : String} {n : Nat} {p p' : Progress} {u : Unit}
    (h : g.Conforms options p) (htracks : g.Tracks name g.inputs p) (hn : n ∈ g.network.order)
    (hstep : g.lowerVisited options n p = .ok u p') : g.Conforms options p' := by
  cases hnew : p.registry.find? n with
  | some v =>
      rw [lowerVisited_of_find?_eq_some hnew] at hstep
      cases hstep
      exact h
  | none =>
      obtain ⟨node, v, p₁, hnode, hlower, rfl⟩ := (lowerVisited_eq_ok_iff hnew).1 hstep
      obtain ⟨plan, hplan, hemit⟩ := Node.lower_eq_ok_iff.1 hlower
      -- An input would have a value already.
      have hinput : n ∉ g.inputs := by
        intro hmem
        obtain ⟨v, hv⟩ := htracks.exists_value_of_mem hmem
        rw [hnew] at hv
        cases hv
      have hgrounded : g.network.Grounded n := (Network.mem_order_iff.1 hn).2
      have htyped : plan.Typed (g.valueTy? options) :=
        ((Plan.exists_emit_iff htracks.is_open).1 ⟨v, p₁, hemit⟩).congr
          fun _ _ _ => h.valueTy?_eq
      exact h.grow (Plan.extendedBy_of_emit hemit) (.plan hinput hgrounded hnode hplan htyped)
        (Plan.type?_of_emit hemit) (valueTy?_of_plan hnode hinput hplan)

theorem conforms_of_inputs {before after : List Nat} {p : Progress} {u : Unit}
    (hsplit : g.inputs = before ++ after)
    (h : before.forM g.lowerInput (initialProgress options) = .ok u p) : g.Conforms options p :=
  EStateM.forM_induction (motive := fun _ p => g.Conforms options p) h conforms_initialProgress
    fun _ _ _ _ _ hbefore hp hstep => hp.lowerInput (by simp [hsplit, hbefore]) hstep

/-- How far the walk has come when it has visited the nodes of a list. -/
structure Passes (g : Dataflow) (options : Options) (visited : List Nat) (p : Progress) : Prop where
  tracks : g.Tracks options.routineName g.inputs p
  conforms : g.Conforms options p
  registered : ∀ n ∈ visited, ∃ v, p.registry.find? n = some v

theorem passes_of_inputs {p : Progress} {u : Unit}
    (h : g.inputs.forM g.lowerInput (initialProgress options) = .ok u p) :
    g.Passes options [] p := by
  have hsplit : g.inputs = g.inputs ++ [] := (List.append_nil _).symm
  exact ⟨(tracks_of_inputs hsplit h).1, conforms_of_inputs hsplit h, by simp⟩

theorem Passes.lowerVisited {visited : List Nat} {n : Nat} {p p' : Progress} {u : Unit}
    (h : g.Passes options visited p) (hn : n ∈ g.network.order)
    (hstep : g.lowerVisited options n p = .ok u p') : g.Passes options (visited ++ [n]) p' := by
  refine ⟨h.tracks.lowerVisited hstep, h.conforms.lowerVisited h.tracks hn hstep, ?_⟩
  intro m hm
  cases hnew : p.registry.find? n with
  | some v =>
      rw [lowerVisited_of_find?_eq_some hnew] at hstep
      cases hstep
      rcases List.mem_append.1 hm with hm | hm
      · exact h.registered m hm
      · exact ⟨v, by rw [List.mem_singleton.1 hm, hnew]⟩
  | none =>
      obtain ⟨node, v, p₁, -, -, rfl⟩ := (lowerVisited_eq_ok_iff hnew).1 hstep
      rcases List.mem_append.1 hm with hm | hm
      · obtain ⟨w, hw⟩ := h.registered m hm
        exact ⟨w, Registry.find?_add_of_eq_some v hnew hw⟩
      · rw [List.mem_singleton.1 hm]
        exact ⟨v, Registry.find?_add_self _ _ _⟩

theorem Passes.lowerAllVisited {before after : List Nat} {p p' : Progress} {u : Unit}
    (h : g.Passes options [] p) (hsplit : g.network.order = before ++ after)
    (hwalk : before.forM (g.lowerVisited options) p = .ok u p') : g.Passes options before p' :=
  EStateM.forM_induction (motive := fun visited p => g.Passes options visited p) hwalk h
    fun _ _ _ _ _ hbefore hp hstep => hp.lowerVisited (by simp [hsplit, hbefore]) hstep

/-! ## Lowered graphs are accepted -/

theorem Tracks.nodup_inputs {name : String} {inputs : List Nat} {p : Progress}
    (h : g.Tracks name inputs p) : inputs.Nodup := by
  rw [List.nodup_iff_injective_get]
  intro i j hij
  -- The value of an input is its position.
  have hi := (h.value_input i (inputs.get i) (List.getElem?_eq_getElem i.2)).1
  have hj := (h.value_input j (inputs.get j) (List.getElem?_eq_getElem j.2)).1
  rw [hij, hj] at hi
  exact Fin.ext (Option.some.inj hi).symm

theorem accepted_of_lower {f : Routine} (h : g.lower options = .ok f) : g.Accepted options := by
  obtain ⟨p₁, p₂, results, hinputs, hwalk, hsize, hresults, -, -⟩ := lower_eq_ok_iff.1 h
  have hend := (passes_of_inputs hinputs).lowerAllVisited (List.append_nil _).symm hwalk
  refine ⟨hend.tracks.nodup_inputs, fun n hn => ?_, fun n hn => ?_, fun n hn => ?_⟩
  · obtain ⟨v, hv⟩ := hend.tracks.exists_value_of_mem hn
    exact (hend.tracks.image n v hv).hasNode
  · obtain ⟨v, -, hv⟩ := exists_mem_of_forall₂ hresults.flip hn
    exact (hend.tracks.image n v hv).hasNode
  · obtain ⟨v, hv⟩ := Option.isSome_iff_exists.1 ((hend.tracks.isSome_find?_iff hsize n).2 hn)
    exact (hend.conforms n v hv).1

/-! ## Accepted graphs are lowered -/

/-- No input of an accepted graph is refused. -/
theorem Accepted.exists_inputs (h : g.Accepted options) :
    ∃ p, g.inputs.forM g.lowerInput (initialProgress options) = .ok () p := by
  cases hrun : g.inputs.forM g.lowerInput (initialProgress options) with
  | ok u p => exact ⟨p, rfl⟩
  | error e p' =>
      obtain ⟨before, n, after, p, hsplit, hbefore, hstep⟩ :=
        EStateM.exists_of_forM_eq_error hrun
      obtain ⟨htracks, hsize⟩ := tracks_of_inputs hsplit hbefore
      have hn : n ∈ g.inputs := by simp [hsplit]
      -- Only the inputs before this one have values, and it is not among them.
      have hnew : p.registry.find? n = none := by
        have hnodup := h.nodup_inputs
        rw [hsplit] at hnodup
        refine Option.eq_none_iff_forall_ne_some.2 fun v hv => ?_
        have hmem := htracks.mem_of_find? hsize hv
        exact (List.nodup_append.1 hnodup).2.2 n hmem n List.mem_cons_self rfl
      cases h.accepts n (h.inputs_present n hn) with
      | plan hnot => exact absurd hn hnot
      | input _ hnode hty =>
          have hok : g.lowerInput n p = .ok () _ :=
            lowerInput_eq_ok_iff.2 ⟨_, _, hnode, hty, htracks.is_open, hnew, rfl⟩
          rw [hok] at hstep
          cases hstep

/-- When the walk comes to a node of an accepted graph, the node is not refused. -/
theorem Passes.exists_lowerVisited (hg : g.Accepted options) {before after : List Nat} {n : Nat}
    {p : Progress} (h : g.Passes options before p)
    (hsplit : g.network.order = before ++ n :: after) :
    ∃ p', g.lowerVisited options n p = .ok () p' := by
  cases hnew : p.registry.find? n with
  | some v => exact ⟨p, lowerVisited_of_find?_eq_some hnew⟩
  | none =>
      have hn : n ∈ g.network.order := by simp [hsplit]
      cases hg.accepts n (Network.mem_order_iff.1 hn).1 with
      | input hinput =>
          obtain ⟨v, hv⟩ := h.tracks.exists_value_of_mem hinput
          rw [hnew] at hv
          cases hv
      | @plan node plan _ _ hnode hplan htyped =>
          -- The operands have values, and these have the types of their nodes.
          have htyped : plan.Typed p.type? := by
            refine htyped.congr fun m hm t ht => ?_
            have hpred := mem_operands_iff.1 (Plan.operands_subset hplan hm)
            obtain ⟨v, hv⟩ := h.registered m (Network.mem_before_of_order_eq hsplit m hpred)
            exact h.conforms.type?_eq hv ht
          obtain ⟨v, p₁, hemit⟩ := (Plan.exists_emit_iff h.tracks.is_open).2 htyped
          have hlower := Node.lower_eq_ok_iff.2 ⟨plan, hplan, hemit⟩
          exact ⟨_, (lowerVisited_eq_ok_iff hnew).2 ⟨node, v, p₁, hnode, hlower, rfl⟩⟩

theorem Accepted.exists_walk (hg : g.Accepted options) {p : Progress}
    (h : g.Passes options [] p) :
    ∃ p', g.network.order.forM (g.lowerVisited options) p = .ok () p' := by
  cases hrun : g.network.order.forM (g.lowerVisited options) p with
  | ok u p' => exact ⟨p', rfl⟩
  | error e p' =>
      obtain ⟨before, n, after, p₁, hsplit, hbefore, hstep⟩ :=
        EStateM.exists_of_forM_eq_error hrun
      obtain ⟨p₂, hok⟩ := (h.lowerAllVisited hsplit hbefore).exists_lowerVisited hg hsplit
      rw [hok] at hstep
      cases hstep

/-- At the end of the walk every node of an accepted graph has a value. -/
theorem Passes.exists_value (hg : g.Accepted options) {p : Progress}
    (h : g.Passes options g.network.order p) {n : Nat} (hn : g.network.hasNode n = true) :
    ∃ v, p.registry.find? n = some v := by
  cases hg.accepts n hn with
  | input hinput => exact h.tracks.exists_value_of_mem hinput
  | plan _ hgrounded => exact h.registered n (Network.mem_order_iff.2 ⟨hn, hgrounded⟩)

/-- Once every node has a value, nothing is left to refuse but outputs that are no nodes. -/
theorem Passes.exists_finish {visited : List Nat} {p : Progress} (h : g.Passes options visited p)
    (hall : ∀ n, g.network.hasNode n = true → ∃ v, p.registry.find? n = some v)
    (houtputs : ∀ n ∈ g.outputs, g.network.hasNode n = true) :
    ∃ p', g.finish p = .ok () p' := by
  obtain ⟨results, hresults⟩ : ∃ results, List.Forall₂
      (fun n v => p.registry.find? n = some v) g.outputs results :=
    exists_forall₂ fun n hn => hall n (houtputs n hn)
  have hcheck : p.routine.checkReturn results = .ok () := by
    refine Routine.checkReturn_eq_ok_iff.2 ⟨h.tracks.is_open, fun v hv => ?_⟩
    obtain ⟨n, -, hn⟩ := exists_mem_of_forall₂ hresults hv
    obtain ⟨-, t, ht, -⟩ := h.conforms n v hn
    exact ⟨t, ht⟩
  exact ⟨_, finish_eq_ok_iff.2 ⟨h.tracks.size_eq_count hall, results, hresults, hcheck, rfl⟩⟩

/-- Lowering succeeds exactly on the accepted graphs. -/
theorem exists_lower_iff_accepted : (∃ f, g.lower options = .ok f) ↔ g.Accepted options := by
  constructor
  · rintro ⟨f, hf⟩
    exact accepted_of_lower hf
  · intro hg
    obtain ⟨p₁, hinputs⟩ := hg.exists_inputs
    have hstart := passes_of_inputs hinputs
    obtain ⟨p₂, hwalk⟩ := hg.exists_walk hstart
    have hend := hstart.lowerAllVisited (List.append_nil _).symm hwalk
    obtain ⟨p₃, hfinish⟩ := hend.exists_finish (fun n => hend.exists_value hg) hg.outputs_present
    obtain ⟨hsize, results, hresults, hcheck, -⟩ := finish_eq_ok_iff.1 hfinish
    exact ⟨_, lower_eq_ok_iff.2 ⟨p₁, p₂, results, hinputs, hwalk, hsize, hresults, hcheck, rfl⟩⟩

/-! ## Graphs with cycles -/

/-- A node of an accepted graph that is behind a cycle is listed as an input. -/
theorem Accepted.mem_inputs_of_behindCycle (h : g.Accepted options) {n : Nat}
    (hn : g.network.BehindCycle n) : n ∈ g.inputs := by
  cases h.accepts n hn.hasNode with
  | input hinput => exact hinput
  | plan _ hgrounded => exact absurd hn (Network.grounded_iff_not_behindCycle.1 hgrounded)

/-- A graph is refused if a node that is not listed as an input is on a cycle or behind one. Listed
inputs have values before the walk, so a cycle of them alone goes unnoticed. -/
theorem exists_error_of_behindCycle {n : Nat} (hcycle : g.network.BehindCycle n)
    (hn : n ∉ g.inputs) : ∃ e, g.lower options = .error e := by
  cases hlower : g.lower options with
  | error e => exact ⟨e, rfl⟩
  | ok f => exact absurd ((accepted_of_lower hlower).mem_inputs_of_behindCycle hcycle) hn

/-- Two sums, the first of which takes the second as a third operand. -/
def loopedSums : Dataflow :=
  (ofCalls [.input "x" (.encryptedUnsigned 4),
    .operation .add (by decide) [0, 0] (.encryptedUnsigned 4),
    .operation .add (by decide) [1, 0] (.encryptedUnsigned 4), .output 2]).linkOperands 1 [2] 2

theorem exists_error_loopedSums :
    loopedSums.network.BehindCycle 1 ∧ 1 ∉ loopedSums.inputs ∧
      ∃ e, loopedSums.lower {} = .error e := by
  have hfirst : loopedSums.network.LeadsTo 1 2 :=
    show 1 ∈ loopedSums.network.predecessors 2 by decide
  have hsecond : loopedSums.network.LeadsTo 2 1 :=
    show 2 ∈ loopedSums.network.predecessors 1 by decide
  have hcycle : loopedSums.network.OnCycle 1 := .tail (.single hfirst) hsecond
  have hn : 1 ∉ loopedSums.inputs := by decide
  exact ⟨hcycle.behindCycle, hn, exists_error_of_behindCycle hcycle.behindCycle hn⟩

/-- An input that is linked to itself, and is an output too. -/
def selfLinkedInput : Dataflow :=
  (ofCalls [.input "x" (.encryptedUnsigned 4), .output 0]).linkOperands 0 [0] 0

/-- A graph with a cycle may be lowered. -/
theorem lowered_selfLinkedInput :
    selfLinkedInput.network.OnCycle 0 ∧ ∃ f, selfLinkedInput.lower {} = .ok f := by
  have hlink : selfLinkedInput.network.LeadsTo 0 0 :=
    show 0 ∈ selfLinkedInput.network.predecessors 0 by decide
  exact ⟨.single hlink, Except.exists_eq_ok (by decide)⟩

end Dataflow

end CipherFlow
