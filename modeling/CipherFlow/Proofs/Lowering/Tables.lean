import CipherFlow.Proofs.Lowering.Criterion
import CipherFlow.Proofs.Lowering.Support

/-!
# Lookups within their tables

The check of a table compares its size with the width that the input of its node describes, but the
lookup takes a value of the routine. If the inputs of the nodes describe their operands
(`Dataflow.Described`), that value has the described type, through any chain of nodes, and so every
number of its width has an entry. Main statement: `Dataflow.lookups_within_of_lower`.
-/

set_option autoImplicit false

namespace CipherFlow

/-! ## Types of values -/

/-- Lookups come from tables only. -/
theorem Rule.primitive_ne_lookup {op : Tag} {k₁ k₂ : Kind} {rule : Rule}
    (h : Rule.find? op k₁ k₂ = some rule) : rule.primitive ≠ .lookup := by
  unfold Rule.find? at h
  split at h <;> cases h <;> nofun

/-- The value of a node with a plan has the type that its output describes. -/
theorem Node.PlansTo.ty_eq {options : Options} {node : Node} {operands : List Nat} {plan : Plan}
    {d : Descriptor} (h : node.PlansTo options operands plan) (hd : node.outputs.head? = some d) :
    plan.ty = d.ty := by
  cases h with
  | constant hliteral =>
      obtain ⟨hsuits, hwritten⟩ := payloadLiteral_eq_ok_iff.1 hliteral
      cases hd
      exact Payload.ty_eq_of_writtenAs hsuits hwritten
  | binary _ _ houtput =>
      cases hd
      obtain ⟨width, rfl⟩ := Descriptor.kind_eq_encryptedScalar_iff.1 houtput
      rfl
  | lookup _ houtput =>
      cases hd
      obtain ⟨width, rfl⟩ := Descriptor.kind_eq_encryptedScalar_iff.1 houtput
      rfl

/-! ## Lookups -/

/-- A lookup of a value `x` in the constant `t`: the value is an encrypted integer, and the constant
holds the entries of the table, one for each number of its width. -/
structure Routine.LooksUpWithin (r : Routine) (table : Table) (x t : Nat) (width : UInt32) :
    Prop where
  index_type : r.type? x = some (.encrypted width)
  table_constant : ∃ length : UInt64, length.toNat = 2 ^ width.toNat ∧
    r.instruction? t = some ⟨.constant (.dense (.tensor [length] (.clear 64)) table.entries), [],
      some (.tensor [length] (.clear 64))⟩
  length_entries : table.entries.length = 2 ^ width.toNat
  exists_entry : ∀ k, k < 2 ^ width.toNat → ∃ entry, table.entries[k]? = some entry

/-- A complete table at its constant. -/
theorem Routine.looksUpWithin {r : Routine} {table : Table} {x t : Nat} {width : UInt32}
    (hindex : r.type? x = some (.encrypted width))
    (htable : r.instruction? t = some ⟨.constant table.literal, [], some table.literal.ty⟩)
    (hcomplete : table.isComplete width = true) : r.LooksUpWithin table x t width := by
  have hlength : table.entries.length = 2 ^ width.toNat := Table.isComplete_iff_size_eq.1 hcomplete
  refine ⟨hindex, ⟨.ofNatLT table.entries.length table.length_lt, ?_, htable⟩, hlength, ?_⟩
  · rw [UInt64.toNat_ofNatLT, hlength]
  · intro k hk
    have hk : k < table.entries.length := by rw [hlength]; exact hk
    exact ⟨table.entries[k], List.getElem?_eq_getElem hk⟩

theorem Routine.LooksUpWithin.mono {r r' : Routine} {table : Table} {x t : Nat} {width : UInt32}
    (h : r.LooksUpWithin table x t width) (hr : r.ExtendedBy r') :
    r'.LooksUpWithin table x t width := by
  obtain ⟨length, hlength, htable⟩ := h.table_constant
  exact ⟨hr.type? h.index_type, ⟨length, hlength, hr _ _ htable⟩, h.length_entries,
    h.exists_entry⟩

namespace Dataflow

variable {g : Dataflow} {options : Options}

/-- The inputs of every node but an input of the program are described as its operands describe
themselves. -/
def Described (g : Dataflow) : Prop :=
  ∀ n node, g.network.node? n = some node → node.tag ≠ .input →
    List.Forall₂ (fun m d => g.firstOutput m = .ok d) (g.operands n) node.inputs

/-- Graphs that calls of the builders make are among these. -/
theorem WellMade.described (h : g.WellMade) : g.Described :=
  fun n node hnode _ => h.inputs_agree n node hnode

/-- The value of an accepted node has the type that the node describes. -/
theorem Accepts.valueTy?_eq {n : Nat} {d : Descriptor} (h : g.Accepts options n)
    (hd : g.firstOutput n = .ok d) : g.valueTy? options n = some d.ty := by
  obtain ⟨node, hnode, hd⟩ := firstOutput_eq_ok_iff.1 hd
  cases h with
  | input hn hnode' hty =>
      obtain rfl := Option.some.inj (hnode'.symm.trans hnode)
      obtain ⟨name, index, output, rest, -, houtputs, hargument⟩ :=
        Node.argumentTy_eq_ok_iff.1 hty
      obtain ⟨-, -, rfl⟩ := argumentTy_eq_ok_iff.1 hargument
      rw [houtputs] at hd
      cases hd
      exact valueTy?_of_mem_inputs hnode hn hty
  | plan hn _ hnode' hplan =>
      obtain rfl := Option.some.inj (hnode'.symm.trans hnode)
      rw [valueTy?_of_plan hnode hn hplan, (Node.plan_eq_ok_iff.1 hplan).ty_eq hd]

/-- The table of an accepted lookup is checked, if tables are. -/
theorem Accepts.isComplete {n : Nat} {table : Table} {input output : Descriptor}
    (h : g.Accepts options n) (hchecks : options.checksTables = true)
    (hnode : g.network.node? n = some (.lookup table input output)) :
    input.kind = .encryptedScalar ∧ table.isComplete input.width = true := by
  cases h with
  | input _ hnode' hty =>
      obtain rfl := Option.some.inj (hnode'.symm.trans hnode)
      cases hty
  | plan _ _ hnode' hplan =>
      obtain rfl := Option.some.inj (hnode'.symm.trans hnode)
      generalize g.operands n = operands at hplan
      cases Node.plan_eq_ok_iff.1 hplan with
      | lookup hinput _ hcomplete => exact ⟨hinput, hcomplete hchecks⟩

/-- A lookup in the routine is that of a node. -/
theorem Tracks.exists_lookup {name : String} {inputs : List Nat} {p : Progress} {v : Nat}
    {i : Instruction} (h : g.Tracks name inputs p) (hi : p.routine.instruction? v = some i)
    (hop : i.op = .primitive .lookup) :
    ∃ n table input output a x t, p.registry.find? n = some v ∧
      g.network.node? n = some (.lookup table input output) ∧ g.operands n = [a] ∧
      p.registry.find? a = some x ∧ i.operands = [x, t] ∧
      p.routine.instruction? t = some ⟨.constant table.literal, [], some table.literal.ty⟩ := by
  rcases h.covered v (Routine.lt_size_of_instruction? hi) with ⟨n, hn⟩ | ⟨n, hlookup, hn⟩
  · cases h.image n v hn with
    | argument _ hargument =>
        obtain ⟨ty, hinstr⟩ := hargument.exists_instruction
        obtain rfl := Option.some.inj (hi.symm.trans hinstr)
        cases hop
    | constant _ _ _ hinstr =>
        obtain rfl := Option.some.inj (hi.symm.trans hinstr)
        cases hop
    | primitive _ _ _ _ hrule hinstr =>
        obtain rfl := Option.some.inj (hi.symm.trans hinstr)
        exact absurd (Op.primitive.inj hop) (Rule.primitive_ne_lookup hrule)
    | lookup hnode hops ha htable hinstr =>
        obtain rfl := Option.some.inj (hi.symm.trans hinstr)
        exact ⟨n, _, _, _, _, _, _, hn, hnode, hops, ha, rfl, htable⟩
  · -- A table is a constant.
    obtain ⟨table, htable⟩ := (h.image n _ hn).exists_table hlookup
    obtain rfl := Option.some.inj (hi.symm.trans htable)
    cases hop

/-- The lookups so far are within their tables. -/
theorem Passes.looksUpWithin {visited : List Nat} {p : Progress} {v : Nat} {i : Instruction}
    (hg : g.Described) (hchecks : options.checksTables = true) (h : g.Passes options visited p)
    (hi : p.routine.instruction? v = some i) (hop : i.op = .primitive .lookup) :
    ∃ n table input output x t, p.registry.find? n = some v ∧
      g.network.node? n = some (.lookup table input output) ∧ i.operands = [x, t] ∧
      p.routine.LooksUpWithin table x t input.width := by
  obtain ⟨n, table, input, output, a, x, t, hn, hnode, hops, ha, hoperands, htable⟩ :=
    h.tracks.exists_lookup hi hop
  -- The operand describes itself as the input of the node does, and its value is of that type.
  have hagree := hg n _ hnode nofun
  rw [hops] at hagree
  have hfirst : g.firstOutput a = .ok input := (List.forall₂_cons.1 hagree).1
  obtain ⟨haccepts, ty, hty, hvalueTy⟩ := h.conforms a x ha
  obtain ⟨hkind, hcomplete⟩ := (h.conforms n v hn).1.isComplete hchecks hnode
  have hindex : p.routine.type? x = some (.encrypted input.width) := by
    rw [hty, ← hvalueTy, haccepts.valueTy?_eq hfirst]
    obtain ⟨width, rfl⟩ := Descriptor.kind_eq_encryptedScalar_iff.1 hkind
    rfl
  exact ⟨n, table, input, output, x, t, hn, hnode, hoperands,
    Routine.looksUpWithin hindex htable hcomplete⟩

/-- No lookup of a lowered graph is out of bounds, if tables are checked: each comes from a node,
and takes an encrypted integer and a constant with the entries of the node's table, one for each
number of the width of that integer. -/
theorem lookups_within_of_lower {f : Routine} (hg : g.Described)
    (hchecks : options.checksTables = true) (h : g.lower options = .ok f) :
    ∃ value? : Nat → Option Nat,
      (∀ m n v, value? m = some v → value? n = some v → m = n) ∧
      (∀ n v, value? n = some v → g.ImageAt f value? n v) ∧
      ∀ v i, f.instruction? v = some i → i.op = .primitive .lookup →
        ∃ n table input output x t width, value? n = some v ∧
          g.network.node? n = some (.lookup table input output) ∧ i.operands = [x, t] ∧
          f.LooksUpWithin table x t width := by
  obtain ⟨p₁, p, results, hinputs, hwalk, -, -, -, rfl⟩ := lower_eq_ok_iff.1 h
  have hend := (passes_of_inputs hinputs).lowerAllVisited (List.append_nil _).symm hwalk
  have hextended : p.routine.ExtendedBy (p.routine.addReturn results) :=
    p.routine.extendedBy_push _
  refine ⟨p.registry.find?, hend.tracks.injective, fun n v hn => ?_, fun v i hi hop => ?_⟩
  · exact (hend.tracks.image n v hn).mono hextended fun _ _ => id
  · rcases Routine.instruction?_push_eq_some hi with ⟨-, rfl⟩ | hi
    · -- The last instruction is the return.
      cases hop
    · obtain ⟨n, table, input, output, x, t, hn, hnode, hoperands, hwithin⟩ :=
        hend.looksUpWithin hg hchecks hi hop
      exact ⟨n, table, input, output, x, t, input.width, hn, hnode, hoperands,
        hwithin.mono hextended⟩

/-- The one lookup of the small graph takes an index of two bits and has four entries. -/
theorem lookups_within_sample :
    ∃ f, sample.Described ∧ sample.lower { checksTables := true } = .ok f ∧
      ∀ v i, f.instruction? v = some i → i.op = .primitive .lookup →
        ∃ n table input output x t width,
          sample.network.node? n = some (.lookup table input output) ∧ i.operands = [x, t] ∧
          f.LooksUpWithin table x t width := by
  obtain ⟨f, hf⟩ : ∃ f, sample.lower { checksTables := true } = .ok f :=
    Except.exists_eq_ok (by cbv)
  have hdescribed : sample.Described := (wellMade_ofCalls _).described
  obtain ⟨value?, -, -, hlookups⟩ := lookups_within_of_lower hdescribed rfl hf
  refine ⟨f, hdescribed, hf, fun v i hi hop => ?_⟩
  obtain ⟨n, table, input, output, x, t, width, -, hwithin⟩ := hlookups v i hi hop
  exact ⟨n, table, input, output, x, t, width, hwithin⟩

end Dataflow

end CipherFlow
