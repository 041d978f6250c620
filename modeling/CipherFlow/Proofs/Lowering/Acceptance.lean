import CipherFlow.Proofs.Lowering.Criterion
import CipherFlow.Proofs.Lowering.Refusal

/-!
# Which programs are lowered

A graph that calls of the builders make is lowered exactly if each of its nodes is supported. What
it is refused with never comes from the bookkeeping of the lowering, and from the backend only for a
constant or a dot product. The invariant of a lowering (`Dataflow.Reaches`) says that the values so
far have the types that their nodes describe, so that the operands of the next node are as its
inputs describe them.
-/

set_option autoImplicit false

namespace CipherFlow

namespace Dataflow

variable {g : Dataflow} {options : Options}

/-! ## The invariant -/

/-- The nodes that have values are supported, and their values have the types that they describe. -/
def Settled (g : Dataflow) (options : Options) (p : Progress) : Prop :=
  ∀ n v, p.registry.find? n = some v → ∃ node output, g.network.node? n = some node ∧
    node.outputs = [output] ∧ node.Supported options ∧ p.routine.type? v = some output.ty

/-- How far a lowering has come when the nodes of a list are visited. -/
structure Reaches (g : Dataflow) (options : Options) (done : List Nat) (p : Progress) : Prop where
  tracks : g.Tracks options.routineName g.inputs p
  settled : g.Settled options p
  registered : ∀ n ∈ done, ∃ v, p.registry.find? n = some v

theorem settled_initialProgress : g.Settled options (initialProgress options) := by
  intro n v h
  cases h

/-- One more node gets a value. -/
theorem Settled.grow {p : Progress} {r : Routine} {n v : Nat} {node : Node} {output : Descriptor}
    (h : g.Settled options p) (hr : p.routine.ExtendedBy r)
    (hnode : g.network.node? n = some node) (houtput : node.outputs = [output])
    (hsupported : node.Supported options) (htype : r.type? v = some output.ty) :
    g.Settled options ⟨r, p.registry.add n v⟩ := by
  intro m w hm
  rcases Registry.eq_or_find?_of_find?_add hm with ⟨rfl, rfl⟩ | hm
  · exact ⟨node, output, hnode, houtput, hsupported, htype⟩
  · obtain ⟨node', output', hnode', houtput', hsupported', htype'⟩ := h m w hm
    exact ⟨node', output', hnode', houtput', hsupported', hr.type? htype'⟩

/-! ## Inputs -/

/-- A node listed as an input is one. -/
theorem WellMade.exists_input (hg : g.WellMade) {n : Nat} (hn : n ∈ g.inputs) :
    ∃ name index inputs output,
      g.network.node? n = some ⟨.input name index, inputs, [output]⟩ := by
  obtain ⟨⟨op, inputs, outputs⟩, hnode, htag⟩ := (hg.mem_inputs_iff n).1 hn
  obtain ⟨output, rfl⟩ := hg.exists_output n _ hnode
  cases op with
  | input name index => exact ⟨name, index, inputs, output, hnode⟩
  | add | sub | mul | dot => cases htag
  | constant payload => cases htag
  | lookup table => cases htag

theorem Settled.lowerInput (hg : g.WellMade) {n : Nat} {p p' : Progress} {u : Unit}
    (h : g.Settled options p) (hn : n ∈ g.inputs) (hstep : g.lowerInput n p = .ok u p') :
    g.Settled options p' := by
  obtain ⟨name, index, inputs, output, hinput⟩ := hg.exists_input hn
  obtain ⟨node, ty, hnode, hty, -, -, rfl⟩ := lowerInput_eq_ok_iff.1 hstep
  rw [hinput] at hnode
  cases hnode
  obtain ⟨hinteger, hsigned, rfl⟩ := argumentTy_eq_ok_iff.1 hty
  refine h.grow (p.routine.extendedBy_push _) hinput rfl (.input hinteger hsigned) ?_
  exact Routine.type?_of_instruction? (Routine.instruction?_push_size _ _)

theorem WellMade.settled_of_inputs (hg : g.WellMade) {before after : List Nat} {p : Progress}
    {u : Unit} (hsplit : g.inputs = before ++ after)
    (h : before.forM g.lowerInput (initialProgress options) = .ok u p) : g.Settled options p :=
  EStateM.forM_induction (motive := fun _ p => g.Settled options p) h settled_initialProgress
    fun _ n _ _ _ hbefore hp hstep => hp.lowerInput hg (by simp [hsplit, hbefore]) hstep

/-! ## Nodes in the order of the walk -/

/-- When the walk comes to a node, its operands have values as its inputs describe them. -/
theorem Reaches.ready (hg : g.WellMade) {done rest : List Nat} {n : Nat} {node : Node}
    {p : Progress} (h : g.Reaches options done p) (hsplit : g.network.order = done ++ n :: rest)
    (hnode : g.network.node? n = some node) : p.Ready (g.operands n) node.inputs := by
  refine ⟨h.tracks.is_open, ?_⟩
  have hdone : ∀ m ∈ g.operands n, m ∈ done := fun m hm =>
    Network.mem_before_of_order_eq hsplit m (mem_operands_iff.1 hm)
  -- An operand describes itself as the input of the node does, and its value is of that type.
  refine ((List.forall₂_and_left _ _).2 ⟨hdone, hg.inputs_agree n node hnode⟩).imp fun m d hm => ?_
  obtain ⟨v, hv⟩ := h.registered m hm.1
  obtain ⟨node', output, hnode', houtput, -, htype⟩ := h.settled m v hv
  obtain ⟨other, hother, hd⟩ := firstOutput_eq_ok_iff.1 hm.2
  rw [hnode'] at hother
  cases hother
  rw [houtput] at hd
  cases hd
  exact ⟨v, hv, htype⟩

/-- A node without a value is no input. -/
theorem Tracks.tag_ne_input (hg : g.WellMade) {name : String} {p : Progress} {n : Nat}
    {node : Node} (h : g.Tracks name g.inputs p) (hnode : g.network.node? n = some node)
    (hnew : p.registry.find? n = none) : node.tag ≠ .input := by
  intro htag
  obtain ⟨i, hi⟩ := List.mem_iff_getElem?.1 ((hg.mem_inputs_iff n).2 ⟨node, hnode, htag⟩)
  rw [(h.value_input i n hi).1] at hnew
  cases hnew

theorem Reaches.lowerVisited (hg : g.WellMade) {done rest : List Nat} {n : Nat}
    {p p' : Progress} {u : Unit} (h : g.Reaches options done p)
    (hsplit : g.network.order = done ++ n :: rest)
    (hstep : g.lowerVisited options n p = .ok u p') : g.Reaches options (done ++ [n]) p' := by
  have htracks := h.tracks.lowerVisited hstep
  cases hnew : p.registry.find? n with
  | some v =>
      rw [lowerVisited_of_find?_eq_some hnew] at hstep
      cases hstep
      -- An input has had its value all along.
      refine ⟨h.tracks, h.settled, fun m hm => ?_⟩
      rcases List.mem_append.1 hm with hm | hm
      · exact h.registered m hm
      · rw [List.mem_singleton.1 hm]
        exact ⟨v, hnew⟩
  | none =>
      obtain ⟨node, v, p₁, hnode, hlower, rfl⟩ := (lowerVisited_eq_ok_iff hnew).1 hstep
      obtain ⟨output, houtput⟩ := hg.exists_output n node hnode
      obtain ⟨hsupported, htype⟩ := Node.supported_of_lower (h.ready hg hsplit hnode) hlower
      obtain ⟨plan, -, hemit⟩ := Node.lower_eq_ok_iff.1 hlower
      refine ⟨htracks, h.settled.grow (Plan.extendedBy_of_emit hemit) hnode houtput hsupported
        (htype output (by simp [houtput])), fun m hm => ?_⟩
      rcases List.mem_append.1 hm with hm | hm
      · obtain ⟨w, hw⟩ := h.registered m hm
        exact ⟨w, Registry.find?_add_of_eq_some v hnew hw⟩
      · rw [List.mem_singleton.1 hm]
        exact ⟨v, Registry.find?_add_self _ _ _⟩

theorem WellMade.reaches_of_inputs (hg : g.WellMade) {p : Progress} {u : Unit}
    (h : g.inputs.forM g.lowerInput (initialProgress options) = .ok u p) :
    g.Reaches options [] p := by
  have hsplit : g.inputs = g.inputs ++ [] := (List.append_nil _).symm
  exact ⟨(tracks_of_inputs hsplit h).1, hg.settled_of_inputs hsplit h, by simp⟩

theorem Reaches.lowerAllVisited (hg : g.WellMade) {before after : List Nat} {p p' : Progress}
    {u : Unit} (h : g.Reaches options [] p) (hsplit : g.network.order = before ++ after)
    (hwalk : before.forM (g.lowerVisited options) p = .ok u p') : g.Reaches options before p' :=
  EStateM.forM_induction (motive := fun done p => g.Reaches options done p) hwalk h
    fun done n rest _ _ hbefore hp hstep =>
      hp.lowerVisited hg
        (show g.network.order = done ++ n :: (rest ++ after) by simp [hsplit, hbefore]) hstep

/-- At the end of the walk every node has a value. -/
theorem Reaches.exists_value (hg : g.WellMade) {p : Progress}
    (h : g.Reaches options g.network.order p) {n : Nat} (hn : g.network.hasNode n = true) :
    ∃ v, p.registry.find? n = some v :=
  h.registered n (Network.mem_order_iff.2 ⟨hn, hg.grounded n⟩)

/-- A graph that is lowered has supported nodes only. -/
theorem WellMade.supported_of_lower (hg : g.WellMade) {f : Routine}
    (h : g.lower options = .ok f) {n : Nat} {node : Node}
    (hnode : g.network.node? n = some node) : node.Supported options := by
  obtain ⟨p₁, p₂, results, hinputs, hwalk, -, -, -, -⟩ := lower_eq_ok_iff.1 h
  have hend := (hg.reaches_of_inputs hinputs).lowerAllVisited hg (List.append_nil _).symm hwalk
  obtain ⟨v, hv⟩ := hend.exists_value hg (Pool.contains_iff.2 ⟨node, hnode⟩)
  obtain ⟨node', output, hnode', -, hsupported, -⟩ := hend.settled n v hv
  rw [hnode] at hnode'
  cases hnode'
  exact hsupported

/-! ## Refusals -/

/-- Lowering comes to a node and is refused there. -/
inductive RefusedAt (g : Dataflow) (options : Options) (n : Nat) (e : LowerError) : Prop
  | input {before after : List Nat} {p p' : Progress} (hsplit : g.inputs = before ++ n :: after)
      (hbefore : before.forM g.lowerInput (initialProgress options) = .ok () p)
      (hstep : g.lowerInput n p = .error e p') : RefusedAt g options n e
  | visit {before after : List Nat} {p₁ p p' : Progress}
      (hinputs : g.inputs.forM g.lowerInput (initialProgress options) = .ok () p₁)
      (hsplit : g.network.order = before ++ n :: after)
      (hbefore : before.forM (g.lowerVisited options) p₁ = .ok () p)
      (hstep : g.lowerVisited options n p = .error e p') : RefusedAt g options n e

/-- A node that is refused is not supported, and is refused for what it is itself. -/
theorem RefusedAt.exists_node (hg : g.WellMade) {n : Nat} {e : LowerError}
    (h : g.RefusedAt options n e) :
    ∃ node, g.network.node? n = some node ∧ ¬ node.Supported options ∧ node.RefusedWith e := by
  cases h with
  | @input before after p p' hsplit hbefore hstep =>
      obtain ⟨htracks, hsize⟩ := tracks_of_inputs hsplit hbefore
      obtain ⟨name, index, inputs, output, hnode⟩ := hg.exists_input (n := n) (by simp [hsplit])
      -- Only the inputs before this one have values, and it is not among them.
      have hnew : p.registry.find? n = none := by
        have hnodup := hg.nodup_inputs
        rw [hsplit] at hnodup
        refine Option.eq_none_iff_forall_ne_some.2 fun v hv => ?_
        have hmem := htracks.mem_of_find? hsize hv
        exact (List.nodup_append.1 hnodup).2.2 n hmem n List.mem_cons_self rfl
      have hty : argumentTy name output = .error e :=
        argumentTy_of_lowerInput_eq_error hnode htracks.is_open hnew hstep
      refine ⟨_, hnode, fun hsupported => ?_, Or.inl (layer_of_argumentTy hty)⟩
      cases hsupported with
      | input hinteger hsigned =>
          rw [argumentTy_eq_ok_iff.2 ⟨hinteger, hsigned, rfl⟩] at hty
          cases hty
      | binary happlies => cases happlies
  | @visit before after p₁ p p' hinputs hsplit hbefore hstep =>
      have hreaches := (hg.reaches_of_inputs hinputs).lowerAllVisited hg hsplit hbefore
      -- A node that has a value is left alone, and so not refused.
      have hnew : p.registry.find? n = none := by
        refine Option.eq_none_iff_forall_ne_some.2 fun v hv => ?_
        rw [lowerVisited_of_find?_eq_some hv] at hstep
        cases hstep
      obtain ⟨node, hnode⟩ := Pool.contains_iff.1
        (Network.mem_order_iff.1 (show n ∈ g.network.order by simp [hsplit])).1
      obtain ⟨output, houtput⟩ := hg.exists_output n node hnode
      have hready := hreaches.ready hg hsplit hnode
      have htag := hreaches.tracks.tag_ne_input hg hnode hnew
      have hlower := lower_of_lowerVisited_eq_error hnode hnew hstep
      refine ⟨node, hnode, fun hsupported => ?_,
        Node.refusedWith_of_lower hready houtput htag hlower⟩
      obtain ⟨v, p'', hok⟩ := hsupported.exists_lower htag hready
      rw [hok] at hlower
      cases hlower

/-- A graph that is refused is refused at a node, if none of its nodes is behind a cycle and its
outputs are nodes. -/
theorem exists_refusedAt (hgrounded : ∀ n, g.network.hasNode n = true → g.network.Grounded n)
    (houtputs : ∀ n ∈ g.outputs, g.network.hasNode n = true) {e : LowerError}
    (h : g.lower options = .error e) : ∃ n, g.RefusedAt options n e := by
  have hall : ∃ p, g.lowerAll options (initialProgress options) = .error e p := by
    unfold lower at h
    split at h
    · cases h
    · next hall =>
        cases h
        exact ⟨_, hall⟩
  obtain ⟨p, hall⟩ := hall
  unfold lowerAll at hall
  rw [Network.walk_eq_forM] at hall
  rcases EStateM.bind_eq_error_iff.1 hall with hinputs | ⟨⟨⟩, p₁, hinputs, hrest⟩
  · obtain ⟨before, n, after, p₁, hsplit, hbefore, hstep⟩ :=
      EStateM.exists_of_forM_eq_error hinputs
    exact ⟨n, .input hsplit hbefore hstep⟩
  · rcases EStateM.bind_eq_error_iff.1 hrest with hwalk | ⟨⟨⟩, p₂, hwalk, hfinish⟩
    · obtain ⟨before, n, after, p₂, hsplit, hbefore, hstep⟩ :=
        EStateM.exists_of_forM_eq_error hwalk
      exact ⟨n, .visit hinputs hsplit hbefore hstep⟩
    · -- The walk came to every node, so every node has a value.
      have hend := (passes_of_inputs hinputs).lowerAllVisited (List.append_nil _).symm hwalk
      obtain ⟨p', hok⟩ := hend.exists_finish
        (fun n hn => hend.registered n (Network.mem_order_iff.2 ⟨hn, hgrounded n hn⟩)) houtputs
      rw [hok] at hfinish
      cases hfinish

/-- A graph that is refused at a node is refused with the error of that node. -/
theorem RefusedAt.lower_eq {n : Nat} {e : LowerError} (h : g.RefusedAt options n e) :
    g.lower options = .error e := by
  have hall : ∃ p, g.lowerAll options (initialProgress options) = .error e p := by
    unfold lowerAll
    rw [Network.walk_eq_forM]
    cases h with
    | @input _ _ _ p' hsplit hbefore hstep =>
        have hinputs : g.inputs.forM g.lowerInput (initialProgress options) = .error e p' :=
          hsplit ▸ EStateM.forM_eq_error hbefore hstep
        exact ⟨p', EStateM.bind_of_eq_error hinputs⟩
    | @visit _ _ p₁ _ p' hinputs hsplit hbefore hstep =>
        have hwalk : g.network.order.forM (g.lowerVisited options) p₁ = .error e p' :=
          hsplit ▸ EStateM.forM_eq_error hbefore hstep
        rw [EStateM.bind_of_eq_ok hinputs]
        exact ⟨p', EStateM.bind_of_eq_error hwalk⟩
  obtain ⟨p, hall⟩ := hall
  unfold lower
  rw [show g.lowerAll options ⟨.empty options.routineName, .empty⟩ = .error e p from hall]

theorem WellMade.exists_refusedAt (hg : g.WellMade) {e : LowerError}
    (h : g.lower options = .error e) : ∃ n, g.RefusedAt options n e :=
  Dataflow.exists_refusedAt (fun n _ => hg.grounded n) hg.outputs_present h

/-! ## Graphs made by calls -/

/-- A graph that calls make is lowered exactly if each of its nodes is supported on its own. -/
theorem exists_lower_iff_supported (calls : List Call) (options : Options) :
    (∃ f, (ofCalls calls).lower options = .ok f) ↔
      ∀ n node, (ofCalls calls).network.node? n = some node → node.Supported options := by
  have hg := wellMade_ofCalls calls
  constructor
  · rintro ⟨f, hf⟩ n node hnode
    exact hg.supported_of_lower hf hnode
  · intro hsupported
    cases hlower : (ofCalls calls).lower options with
    | ok f => exact ⟨f, rfl⟩
    | error e =>
        obtain ⟨n, hn⟩ := hg.exists_refusedAt hlower
        obtain ⟨node, hnode, hunsupported, -⟩ := hn.exists_node hg
        exact absurd (hsupported n node hnode) hunsupported

/-- A graph that calls make is never refused for the bookkeeping of the lowering, and by the backend
only at a constant, for its literal, or at a dot product of tensors that differ in shape or are no
vectors. -/
theorem refusal_of_lower_ofCalls {calls : List Call} {options : Options} {e : LowerError}
    (h : (ofCalls calls).lower options = .error e) :
    e.layer ≠ .internal ∧ (e.layer = .backend → ∃ n node,
      (ofCalls calls).RefusedAt options n e ∧
        (ofCalls calls).network.node? n = some node ∧ node.BackendRefusal e) := by
  have hg := wellMade_ofCalls calls
  obtain ⟨n, hn⟩ := hg.exists_refusedAt h
  obtain ⟨node, hnode, -, hfrontend | hbackend⟩ := hn.exists_node hg
  · rw [hfrontend]
    exact ⟨by decide, by rintro ⟨⟩⟩
  · refine ⟨?_, fun _ => ⟨n, node, hn, hnode, hbackend⟩⟩
    cases hbackend <;> rintro ⟨⟩

/-- The dot product of an encrypted vector of two elements and a clear one of three. -/
def unequalVectors : List Call :=
  [.input "x" (.encryptedVector 7 2), .input "y" (.clearVector 7 3),
    .operation .dot (by decide) [0, 1] (.encryptedUnsigned 7)]

theorem refusal_unequalVectors :
    ∃ n node, (ofCalls unequalVectors).RefusedAt {} n (.emit (.shapeMismatch .dotClear [2] [3])) ∧
      (ofCalls unequalVectors).network.node? n = some node ∧
        node.BackendRefusal (.emit (.shapeMismatch .dotClear [2] [3])) := by
  have h : (ofCalls unequalVectors).lower {}
      = .error (.emit (.shapeMismatch .dotClear [2] [3])) := by cbv
  exact (refusal_of_lower_ofCalls h).2 rfl

end Dataflow

end CipherFlow
