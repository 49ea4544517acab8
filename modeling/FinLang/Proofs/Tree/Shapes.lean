import FinLang.Operation
import FinLang.Proofs.Tree.Recovery
import FinLang.Proofs.Tree.Assembly
import FinLang.Proofs.Tree.Soundness

namespace FinLang

namespace Node

-- What a node of each kind consists of.
def Shaped (n : Node) : Prop :=
  match n.kind with
  | .single | .label => n.children = []
  | .declare => True
  | .expression =>
    (∀ op ∈ n.operator?, ∀ k ∈ op.arity?, n.children.length = k) ∧
      (n.operator? = some .call → ∃ callee args, n.children = [callee, args] ∧ args.isGroup = true)
  | .statement =>
    (n.operator? = some .semicolon ∧ ∃ e, n.children = [e] ∧ e.isOperand = true) ∨
      (n.operator? = some .leftBrace ∧ ∀ c ∈ n.children, c.isStatement = true)
  | .branch =>
    ∃ (arms : List (Node × Node)) (last : Node × Node),
      n.children = ((arms ++ [last]).flatMap fun p => [p.1, p.2]) ∧
      (∀ p ∈ arms, p.1.isGroup = true) ∧ (last.1 = .always ∨ last.1.isGroup = true) ∧
      ∀ p ∈ arms ++ [last], p.2.isScopedBlock = true
  | .loop =>
    ∃ head body, n.children = [head, body] ∧ head.isGroup = true ∧ body.isScopedBlock = true ∧
      (n.keyword? = some .whileWord ∨ n.keyword? = some .forWord ∧ head.children.length = 3)
  | .function =>
    ∃ name params body, n.children = [name, params, body] ∧ name.name?.isSome = true ∧
      params.isGroup = true ∧ (∀ p ∈ params.children, p.name?.isSome = true) ∧
      body.isScopedBlock = true
  | .jump =>
    match n.keyword? with
    | some .gotoWord => ∃ target, n.children = [target] ∧ target.name?.isSome = true
    | some .returnWord | some .exitWord =>
      ∃ operand : Option Node, n.children = operand.toList ∧ ∀ e ∈ operand, e.isOperand = true
    | some .breakWord | some .continueWord => n.children = []
    | _ => False
  | .program => ∀ c ∈ n.children, c.isStatement = true

end Node

-- The builder and the evaluator count operands alike.
theorem Operator.arity?_of_binding {op : Operator} {row : Binding} (h : op.binding? = some row) :
    op.arity? = some (row.needsLeft.toNat + row.needsRight.toNat) := by
  cases op <;> cases h <;> rfl

variable {L : Places} {n : Node} {b : Builder}

namespace Node

theorem always_shaped : always.Shaped := by
  simp [Shaped, always, operator?]

theorem subnodes_always : always.subnodes = [always] := by
  simp [always, subnodes, subnodesOf]

end Node

namespace Node.Made

theorem shaped (h : Made L n) : n.Shaped := by
  cases h with
  | single | label => exact rfl
  | operation _ hbind hlen =>
    obtain ⟨op, hop, hrow⟩ := Token.operator?_of_binding hbind
    have harity := Operator.arity?_of_binding hrow
    refine ⟨?_, ?_⟩
    · simpa [expression, operator?, hop, harity] using hlen
    · rintro hcall
      cases hop.symm.trans hcall
      cases hrow
  | group _ hop hopens =>
    rename_i t op cs _ _
    refine ⟨?_, ?_⟩
    · have harity : op.arity? = none := by
        cases op <;> first | rfl | cases hopens
      simp [expression, operator?, hop, harity]
    · intro hcall
      cases hop.symm.trans hcall
      cases hopens
  | call _ hop _ _ hround =>
    refine ⟨?_, fun _ => ⟨_, _, rfl, hround⟩⟩
    simp [expression, operator?, hop, Operator.arity?]
  | access _ hop =>
    refine ⟨?_, ?_⟩
    · simp [expression, operator?, hop, Operator.arity?]
    · simp [expression, operator?, hop]
  | ended _ hop _ hoperand => exact .inl ⟨hop, _, rfl, hoperand⟩
  | block _ hop _ hstatements => exact .inr ⟨hop, hstatements⟩
  | declaration => trivial
  | goto _ hword _ hname =>
    simp [Shaped, keyword?, hword, hname]
  | leave _ hword hleave _ hoperand =>
    rcases hleave with rfl | rfl <;>
    · simp only [Shaped, keyword?, Option.bind_some, hword]
      exact ⟨_, rfl, hoperand⟩
  | stop _ hword hstop =>
    rcases hstop with rfl | rfl <;> simp [Shaped, keyword?, hword]
  | branch _ hgroups hlast _ _ hscoped => exact ⟨_, _, rfl, hgroups, hlast, hscoped⟩
  | loop _ hword hround _ hscoped => exact ⟨_, _, rfl, hround, hscoped, hword⟩
  | function _ hkind hround _ hnames hscoped =>
    refine ⟨_, _, _, rfl, ?_, hround, hnames, hscoped⟩
    rw [name?_ofToken hkind]
    rfl

theorem children (h : Made L n) : ∀ c ∈ n.children, Made L c ∨ c = .always := by
  intro c hc
  cases h with
  | single | stop | label => cases hc
  | operation _ _ _ hcs | group _ _ _ hcs | block _ _ hcs | declaration _ hcs => exact .inl (hcs c hc)
  | call _ _ hleft hright | access _ _ hleft hright =>
    simp only [expression, List.mem_cons, List.not_mem_nil, or_false] at hc
    rcases hc with rfl | rfl
    · exact .inl hleft
    · exact .inl hright
  | ended _ _ he | goto _ _ he =>
    simp only [List.mem_singleton] at hc
    exact .inl (hc ▸ he)
  | leave _ _ _ hmade => exact .inl (hmade c (Option.mem_toList.mp hc))
  | branch _ hgroups hlast hmade hblocks =>
    obtain ⟨p, hp, hc⟩ := List.mem_flatMap.mp hc
    simp only [List.mem_cons, List.not_mem_nil, or_false] at hc
    rcases hc with rfl | rfl
    · rcases List.mem_append.mp hp with harm | harm
      · exact .inl (hmade p hp (hgroups p harm))
      · rw [List.mem_singleton] at harm
        subst harm
        exact hlast.symm.imp_left (hmade p hp)
    · exact .inl (hblocks p hp)
  | loop _ _ _ hhead _ hbody =>
    simp only [List.mem_cons, List.not_mem_nil, or_false] at hc
    rcases hc with rfl | rfl
    · exact .inl hhead
    · exact .inl hbody
  | function ht hkind _ hparams _ _ hbody =>
    simp only [List.mem_cons, List.not_mem_nil, or_false] at hc
    rcases hc with rfl | rfl | rfl
    · exact .inl (.value ht (by simp [Token.isValue, hkind]))
    · exact .inl hparams
    · exact .inl hbody

mutual

-- All that lies in a tree that the builder has made has its shape.
theorem subnodes_shaped : ∀ {n : Node}, Made L n → ∀ m ∈ n.subnodes, m.Shaped
  | ⟨kind, token, cs⟩, h => by
    unfold Node.subnodes
    exact List.forall_mem_cons.mpr ⟨h.shaped, subnodesOf_shaped h.children⟩

theorem subnodesOf_shaped : ∀ {ns : List Node}, (∀ n ∈ ns, Made L n ∨ n = .always) →
    ∀ m ∈ subnodesOf ns, m.Shaped
  | [], _ => by simp [subnodesOf]
  | n :: ns, h => by
    rw [List.forall_mem_cons] at h
    unfold subnodesOf
    refine List.forall_mem_append.mpr ⟨?_, subnodesOf_shaped h.2⟩
    rcases h.1 with hn | hn
    · exact subnodes_shaped hn
    · rw [hn, subnodes_always]
      simpa using always_shaped

end

end Node.Made

namespace Builder

-- A semicolon from anywhere ends a statement like any other.
theorem Made.closeLast_all (h : b.Made .all) (sourceLength : Nat) :
    (b.closeLast sourceLength).Made .all := by
  rcases h.closeLast_cases sourceLength with hmade | ⟨t, e, below, errors, he, hoperand, hbelow, hop, heq⟩
  · exact hmade
  · rw [heq]
    exact hbelow.push (.ended trivial hop he hoperand)

theorem program_shaped (h : b.Made L) : ∀ m ∈ b.program.subnodes, m.Shaped := by
  intro m hm
  rcases Node.mem_subnodes.mp hm with rfl | ⟨c, hc, hm⟩
  · intro c hc
    have := (List.mem_filter.mp hc).2
    simp only [Bool.and_eq_true] at this
    exact this.2
  · exact (h.stack c (List.mem_reverse.mp (List.mem_of_mem_filter hc))).subnodes_shaped m hm

-- Whatever the builder is given, each node of its tree consists of what a node of
-- its kind has.
theorem finish_shaped (ts : List Token) (source : String) (extra : List Diagnostic) :
    ∀ m ∈ ((Builder.empty.pushTokens ts).finish source extra).root.subnodes, m.Shaped := by
  have hbuilt : (Builder.empty.pushTokens ts).Made .all := .pushTokens .empty fun _ _ => trivial
  exact program_shaped (hbuilt.closeLast_all _)

-- Behind a bracket that closes nothing, `return a` without its semicolon.
theorem finish_shaped_stray :
    let close : Token := ⟨.operator .rightParen, ")", ⟨1, 1⟩, ⟨0, 1⟩⟩
    let word : Token := ⟨.keyword .returnWord, "return", ⟨1, 2⟩, ⟨1, 7⟩⟩
    let name : Token := ⟨.variable, "a", ⟨1, 9⟩, ⟨8, 9⟩⟩
    let tree := (Builder.empty.pushTokens [close, word, name]).finish ")return a" []
    let jump : Node := ⟨.jump, some word, [.ofToken name]⟩
    jump ∈ tree.root.subnodes ∧ jump.Shaped := by
  intro close word name tree jump
  have hroot : tree.root = ⟨.program, none, [jump]⟩ := rfl
  have hmem : jump ∈ tree.root.subnodes := by
    rw [hroot]
    exact .tail _ (.head _)
  exact ⟨hmem, finish_shaped _ _ _ jump hmem⟩

end Builder

end FinLang
