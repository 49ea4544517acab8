import FinLang.Tree.Basic

namespace FinLang

-- Nothing but warnings.
def Clean (errors : List Diagnostic) : Prop :=
  ∀ d ∈ errors, d.isError = false

namespace Clean

variable {errors errors' : List Diagnostic} {p : Position} {s : Span} {c : Complaint} {n : Node}

theorem mono (h : Clean errors') (hsub : errors ⊆ errors') : Clean errors :=
  fun d hd => h d (hsub hd)

theorem not_parseError (h : Clean (.parseError p s c :: errors)) : False :=
  nomatch h _ (List.mem_cons_self ..)

theorem not_nodeError (h : Clean (Builder.nodeError n c :: errors)) : False :=
  h.not_parseError

end Clean

-- Complaints are never taken back.
namespace Builder

variable {b : Builder} {t : Token} {errors : List Diagnostic} {stack : List Node}

theorem record_errors (d : Diagnostic) : b.errors ⊆ (b.record d).errors :=
  List.subset_cons_self ..

theorem fold_errors (precedence : Nat) (assoc : Assoc) (x : Node) (below : List Node) :
    errors ⊆ (fold precedence assoc errors x below).errors := by
  fun_induction fold precedence assoc errors x below <;> simp_all

theorem completeStack_errors (stack : List Node) :
    errors ⊆ (completeStack errors stack).errors := by
  fun_induction completeStack errors stack with
  | case1 => simp
  | case2 => exact fold_errors ..
  | case3 errors top below _ _ ih => exact fun d hd => ih (List.mem_cons_of_mem _ hd)
  | case4 => simp

theorem reduce_errors (precedence : Nat) (assoc : Assoc) :
    b.errors ⊆ (b.reduce precedence assoc).errors := by
  unfold reduce
  split
  · split
    · exact fold_errors ..
    · simp
  · simp

theorem foldTrailing_errors (op : Node) : b.errors ⊆ (b.foldTrailing op).errors := by
  unfold foldTrailing
  split
  · split
    · simp
    · exact record_errors _
  · exact record_errors _

theorem shift_errors (row : Binding) : b.errors ⊆ (b.shift t row).errors := by
  have hreduce : b.errors ⊆
      (if row.needsLeft = true then b.reduce row.precedence row.assoc else b).errors := by
    split
    · exact reduce_errors ..
    · simp
  unfold shift
  simp only
  split
  · exact hreduce
  · exact List.Subset.trans hreduce (foldTrailing_errors _)

theorem pushOperator_errors (op : Operator) : b.errors ⊆ (b.pushOperator t op).errors := by
  unfold pushOperator
  split
  · exact record_errors _
  · rename_i row _
    have hdummy : b.errors ⊆
        (if (op == .comma && b.opensEmptySlot) = true then b.pushDummy t else b).errors := by
      split <;> simp [pushDummy, push]
    simp only
    generalize (if (op == .comma && b.opensEmptySlot) = true then b.pushDummy t else b) = c
      at hdummy ⊢
    split
    · split
      · exact List.Subset.trans hdummy (shift_errors _)
      · exact List.Subset.trans hdummy (record_errors _)
    · split
      · exact List.Subset.trans hdummy (record_errors _)
      · exact List.Subset.trans hdummy (shift_errors _)

theorem declarationErrors_subset (parts : List Node) : errors ⊆ declarationErrors errors parts := by
  unfold declarationErrors
  induction parts generalizing errors with
  | nil => simp
  | cons part rest ih =>
    refine List.Subset.trans ?_ ih
    simp only
    split <;> simp

theorem pushKeywordStatement_errors (word : Keyword) (operand : Option Node) :
    b.errors ⊆ (b.pushKeywordStatement t word operand).errors := by
  unfold pushKeywordStatement
  split
  · exact declarationErrors_subset _
  all_goals try split
  all_goals first
    | exact record_errors _
    | simp [push]

theorem finishStatement_errors : b.errors ⊆ (b.finishStatement t).errors := by
  unfold finishStatement
  split
  · simp
  · rename_i top below _
    split
    · split
      · simp
      · rename_i under rest _
        split
        · exact pushKeywordStatement_errors (b := ⟨rest, b.errors⟩) _ _
        · simp
    · split
      · exact pushKeywordStatement_errors (b := ⟨below, b.errors⟩) _ _
      · simp

theorem finishHeadDeclaration_errors : b.errors ⊆ b.finishHeadDeclaration.errors := by
  unfold finishHeadDeclaration
  split
  · rename_i top under rest _
    split
    · split
      · exact pushKeywordStatement_errors (b := ⟨rest, b.errors⟩) _ _
      · simp
    · simp
  · simp

theorem ite_pushDummy_errors {p : Prop} [Decidable p] :
    (if p then b.pushDummy t else b).errors = b.errors := by
  split <;> rfl

theorem completePart_errors : b.errors ⊆ (b.completePart t).errors := by
  refine List.Subset.trans ?_ (completeStack_errors _)
  rw [ite_pushDummy_errors]
  exact List.Subset.refl _

theorem endStatement_errors : b.errors ⊆ (b.endStatement t).errors := by
  unfold endStatement
  split
  · simp only [push, ite_pushDummy_errors]
    exact List.Subset.trans completePart_errors finishHeadDeclaration_errors
  · exact record_errors _
  · exact List.Subset.trans (completeStack_errors _) finishStatement_errors

theorem groupChildren_errors (items : List Node) : errors ⊆ (groupChildren errors items).2 := by
  unfold groupChildren
  split
  · simp
  · rename_i first extra
    simp only
    induction extra generalizing errors with
    | nil => simp
    | cons n rest ih => exact List.Subset.trans (List.subset_cons_self ..) ih

theorem headPart_errors (items : List Node) : errors ⊆ (headPart errors t items).2 := by
  unfold headPart
  split <;> simp

theorem headParts_errors (current items : List Node) :
    errors ⊆ (headParts t errors current items).2 := by
  induction items generalizing errors current with
  | nil => exact headPart_errors _
  | cons n rest ih =>
    unfold headParts
    split
    · exact List.Subset.trans (headPart_errors _) (ih [])
    · exact ih (n :: current)

theorem pushGroup_errors (op : Operator) (children : List Node) :
    b.errors ⊆ (b.pushGroup t op children).errors := by
  unfold pushGroup
  split
  · simp [push]
  · split
    · split
      · simp
      · split
        · simp
        · exact record_errors _
    · simp [push]

theorem takeGroup_errors (opening : Operator) (isHead : Bool) :
    b.errors ⊆ (b.takeGroup t opening isHead).errors := by
  unfold takeGroup
  split
  · exact record_errors _
  · split
    · split
      · refine List.Subset.trans ?_ (pushGroup_errors _ _)
        cases isHead with
        | true => exact headParts_errors ..
        | false => exact groupChildren_errors _
      · exact record_errors _
    · exact List.Subset.refl _

theorem closeGroup_errors (opening : Operator) : b.errors ⊆ (b.closeGroup t opening).errors := by
  refine List.Subset.trans (completePart_errors (t := t)) ?_
  unfold closeGroup
  simp only
  split
  · refine List.Subset.trans ?_ (takeGroup_errors _ _)
    rw [ite_pushDummy_errors]
    exact finishHeadDeclaration_errors
  · exact takeGroup_errors _ _

theorem pushConditional_errors (keyword condition block : Node) (word : Keyword) :
    b.errors ⊆ (b.pushConditional keyword condition block word).errors := by
  unfold pushConditional
  repeat' split
  all_goals first
    | exact record_errors _
    | simp [push]

theorem defineFunction_errors (call block : Node) :
    b.errors ⊆ (b.defineFunction call block).errors := by
  unfold defineFunction
  repeat' split
  all_goals first
    | exact record_errors _
    | simp [push]

theorem attachBlock_errors (block : Node) : b.errors ⊆ (b.attachBlock block t).errors := by
  unfold attachBlock
  split
  · simp [push]
  · split
    · split
      · split
        · simp
        · exact record_errors (b := ⟨_, b.errors⟩) _
      · exact record_errors (b := ⟨_, b.errors⟩) _
    · split
      · simp [push]
      · split
        · exact record_errors _
        · split
          · rename_i rest _ _ _
            split
            · exact pushConditional_errors (b := ⟨rest, b.errors⟩) ..
            · exact record_errors _
          · rename_i under _ _ _ _
            split
            · exact defineFunction_errors (b := ⟨under, b.errors⟩) ..
            · exact record_errors _

theorem takeBody_errors (body stack : List Node) : errors ⊆ (takeBody errors body stack).2.1 := by
  induction stack generalizing errors body with
  | nil => simp [takeBody]
  | cons n rest ih =>
    unfold takeBody
    split
    · simp
    · split
      · exact ih (n :: body)
      · exact List.Subset.trans (List.subset_cons_self ..) (ih body)

theorem closeBlock_errors : b.errors ⊆ (b.closeBlock t).errors := by
  unfold closeBlock
  split
  · exact record_errors _
  · have hfinish : b.errors ⊆ (if isBoundary b.top? = true then b
        else b.completeExpression.finishStatement
          (.semicolonAt t.position t.span.start)).errors := by
      split
      · simp
      · exact List.Subset.trans (completeStack_errors _) finishStatement_errors
    simp only
    generalize (if isBoundary b.top? = true then b
        else b.completeExpression.finishStatement (.semicolonAt t.position t.span.start)) = c
      at hfinish ⊢
    have htake := List.Subset.trans hfinish (takeBody_errors [] c.stack)
    split
    · rename_i body errors marker below heq
      rw [heq] at htake
      exact List.Subset.trans htake (attachBlock_errors (b := ⟨below, errors⟩) _)
    · rename_i body errors heq
      rw [heq] at htake
      exact List.Subset.trans htake (record_errors (b := ⟨_, errors⟩) _)
  · exact record_errors _

theorem pushLabel_errors : b.errors ⊆ (b.pushLabel t).errors := by
  unfold pushLabel
  split
  · split
    · simp
    · exact record_errors _
  · exact record_errors _

theorem pushValue_errors : b.errors ⊆ (b.pushValue t).errors := by
  unfold pushValue
  split
  · exact record_errors _
  · simp [push]

theorem pushKeyword_errors (word : Keyword) : b.errors ⊆ (b.pushKeyword t word).errors := by
  unfold pushKeyword
  split
  · simp [push]
  · exact record_errors _

theorem pushOpen_errors (op : Operator) : b.errors ⊆ (b.pushOpen t op).errors := by
  unfold pushOpen
  split
  · exact record_errors _
  · simp [push]

theorem pushToken_errors : b.errors ⊆ (b.pushToken t).errors := by
  unfold pushToken
  split
  · exact List.Subset.refl _
  iterate 4 exact pushValue_errors
  · exact pushKeyword_errors _
  · split
    iterate 3 exact pushOpen_errors _
    iterate 2 exact closeGroup_errors _
    · exact closeBlock_errors
    · exact endStatement_errors
    · exact pushLabel_errors
    · exact pushOperator_errors _

theorem pushTokens_errors (ts : List Token) : b.errors ⊆ (b.pushTokens ts).errors := by
  induction ts generalizing b with
  | nil => exact List.Subset.refl _
  | cons t rest ih => exact List.Subset.trans pushToken_errors ih

theorem closeLast_errors (sourceLength : Nat) : b.errors ⊆ (b.closeLast sourceLength).errors := by
  unfold closeLast
  split
  · exact List.Subset.trans (completeStack_errors _) finishStatement_errors
  · exact List.Subset.refl _

theorem leftoverErrors_subset (unclosed : Bool) (nodes : List Node) :
    errors ⊆ leftoverErrors unclosed errors nodes := by
  unfold leftoverErrors
  induction nodes generalizing errors with
  | nil => exact List.Subset.refl _
  | cons n rest ih =>
    refine List.Subset.trans ?_ ih
    simp only
    split
    · simp
    · split <;> simp

end Builder

end FinLang
