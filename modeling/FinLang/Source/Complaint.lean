import FinLang.Token.Operator
import FinLang.Token.Keyword

namespace FinLang

-- Everything that can be wrong with a source text, named by cause.
inductive Complaint where
  -- found while scanning
  | unexpectedCharacter (c : Char)
  | unterminatedComment
  | unterminatedString
  -- values and operators
  | expectedOperatorBefore (text : String)
  | unexpectedKeyword (word : Keyword)
  | expectedExpressionBeforeBrace (op : Operator)
  | unexpectedToken (text : String)
  | missingLeftOperandFor (text : String)
  | unexpectedAfterValue (text : String)
  | missingLeftOperand
  | missingPostfixOperand
  | expectedExpressionAfter (text : String)
  -- groups
  | mismatched (close : String) (opened : Operator)
  | unmatched (close : String)
  | indexCount
  | missingOperator
  | missingSemicolon
  | semicolonInIndex
  -- statements
  | declarationName
  | nothingDeclared
  | gotoLabel
  | expressionAfter (word : Keyword)
  | blockAfterCondition (word : Keyword)
  | blockAfterElse
  | unexpectedColon
  -- blocks
  | incompleteInBlock
  | elseWithoutIf
  | unexpectedBlock
  | conditionAfter (word : Keyword)
  | elifWithoutIf
  | forHead
  | unexpectedBlockAfterExpression
  | functionParameters
  | functionName
  -- end of input
  | unclosed (opened : Operator)
  | incomplete
  -- text supplied by a host application
  | other (text : String)
deriving DecidableEq, Inhabited

namespace Complaint

def text : Complaint → String
  | .unexpectedCharacter c => "Unexpected character: '" ++ c.toString ++ "'"
  | .unterminatedComment => "Unterminated block comment"
  | .unterminatedString => "Unterminated string"
  | .expectedOperatorBefore t => "Expected operator before '" ++ t ++ "'"
  | .unexpectedKeyword k => "Unexpected keyword '" ++ k.text ++ "'"
  | .expectedExpressionBeforeBrace op =>
    "Expected expression after '" ++ op.symbol ++ "', found '\x7b'"
  | .unexpectedToken t => "Unexpected '" ++ t ++ "'"
  | .missingLeftOperandFor t => "Missing left operand for '" ++ t ++ "'"
  | .unexpectedAfterValue t => "Unexpected '" ++ t ++ "' after a value"
  | .missingLeftOperand => "Missing left operand"
  | .missingPostfixOperand => "Missing operand for postfix operator"
  | .expectedExpressionAfter t => "Expected expression after '" ++ t ++ "'"
  | .mismatched close opened =>
    "Mismatched '" ++ close ++ "': '" ++ opened.symbol ++ "' is still open"
  | .unmatched close => "Unmatched '" ++ close ++ "'"
  | .indexCount => "Array index requires exactly one expression"
  | .missingOperator => "Missing operator between expressions"
  | .missingSemicolon => "Expected ';' between expressions"
  | .semicolonInIndex => "Unexpected ';' inside '[]'"
  | .declarationName => "Expected a variable name in declaration"
  | .nothingDeclared => "Expected a variable name after 'var'"
  | .gotoLabel => "Expected a label name after 'goto'"
  | .expressionAfter k => "Unexpected expression after '" ++ k.text ++ "'"
  | .blockAfterCondition k => "Expected '\x7b' block after '" ++ k.text ++ "' condition"
  | .blockAfterElse => "Expected '\x7b' block after 'else'"
  | .unexpectedColon => "Unexpected ':'"
  | .incompleteInBlock => "Incomplete statement in block"
  | .elseWithoutIf => "'else' without a matching 'if'"
  | .unexpectedBlock => "Unexpected block"
  | .conditionAfter k => "Expected '(' condition after '" ++ k.text ++ "'"
  | .elifWithoutIf => "'elif' without a matching 'if'"
  | .forHead => "'for' needs '(init; condition; step)'"
  | .unexpectedBlockAfterExpression => "Unexpected block after expression"
  | .functionParameters => "Function parameters must be plain names"
  | .functionName => "Function name must be an identifier"
  | .unclosed opened => "Unclosed '" ++ opened.symbol ++ "'"
  | .incomplete => "Incomplete statement"
  | .other t => t

end Complaint

end FinLang
