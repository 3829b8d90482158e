import Scriptlet.Stmt.Parser

namespace Scriptlet.Grammar

/-- Items with commas between them. -/
inductive Separated {α : Type} (Item : List Token → α → Prop) : List Token → List α → Prop where
  | one {ts : List Token} {a : α} (item : Item ts a) : Separated Item ts [a]
  | more {ts us : List Token} {comma : Token} {a : α} {as : List α} (item : Item ts a)
      (hc : comma.kind = .mark .comma) (rest : Separated Item us as) :
      Separated Item (ts ++ comma :: us) (a :: as)

/-- Items in parentheses. -/
inductive Listed {α : Type} (Item : List Token → α → Prop) : List Token → List α → Prop where
  | empty {left right : Token} (hl : left.kind = .mark .openParen)
      (hr : right.kind = .mark .closeParen) : Listed Item [left, right] []
  | items {left right : Token} {ts : List Token} {as : List α} (hl : left.kind = .mark .openParen)
      (items : Separated Item ts as) (hr : right.kind = .mark .closeParen) :
      Listed Item (left :: (ts ++ [right])) as

/-- Operands with operators of one level between them, grouped to the left. -/
inductive Chain (level : Level) (Operand : List Token → Expr → Prop) :
    List Token → Expr → Prop where
  | operand {ts : List Token} {e : Expr} (h : Operand ts e) : Chain level Operand ts e
  | operation {ts us : List Token} {operator : Token} {op : Operator} {l r : Expr}
      (left : Chain level Operand ts l) (ho : operator.kind = .operator op)
      (hlevel : op.level = level) (right : Operand us r) :
      Chain level Operand (ts ++ operator :: us) (.binary op l r operator.line)

/-- The value that a token stands for by itself. -/
def literal? : Token.Kind → Option Value
  | .int n => some (.int n)
  | .float x => some (.float x)
  | .str s => some (.str s)
  | .bool b => some (.bool b)
  | _ => none

/-- A name and its arguments. -/
inductive Call (Argument : List Token → Expr → Prop) : List Token → Expr → Prop where
  | mk {t : Token} {name : String} {ts : List Token} {es : List Expr} (hn : t.kind = .name name)
      (arguments : Listed Argument ts es) : Call Argument (t :: ts) (.call name es t.line)

/-- The forms of a primary expression, over those of the expressions inside. Parentheses leave no
trace in the tree. -/
inductive PrimaryOver (Inner : List Token → Expr → Prop) : List Token → Expr → Prop where
  | literal {t : Token} {v : Value} (hv : literal? t.kind = some v) :
      PrimaryOver Inner [t] (.literal v t.line)
  | var {t : Token} {name : String} (hn : t.kind = .name name) :
      PrimaryOver Inner [t] (.var name t.line)
  | call {ts : List Token} {e : Expr} (h : Call Inner ts e) : PrimaryOver Inner ts e
  | group {left right : Token} {ts : List Token} {e : Expr} (hl : left.kind = .mark .openParen)
      (inner : Inner ts e) (hr : right.kind = .mark .closeParen) :
      PrimaryOver Inner (left :: (ts ++ [right])) e

/-- Comparisons of sums of products. -/
abbrev ExpressionOver (Primary : List Token → Expr → Prop) : List Token → Expr → Prop :=
  Chain .comparison (Chain .additive (Chain .multiplicative Primary))

inductive Primary : List Token → Expr → Prop where
  | mk {ts : List Token} {e : Expr}
      (h : PrimaryOver (Chain .comparison (Chain .additive (Chain .multiplicative Primary))) ts e) :
      Primary ts e

abbrev Expression : List Token → Expr → Prop :=
  ExpressionOver Primary

/-- A word that may be missing. -/
inductive Flag (word : Keyword) : List Token → Bool → Prop where
  | absent : Flag word [] false
  | present {t : Token} (hk : t.kind = .keyword word) : Flag word [t] true

/-- A type behind a mark, which may be missing. -/
inductive TypeBehind (mark : Mark) : List Token → Option TypeTag → Prop where
  | absent : TypeBehind mark [] none
  | present {t u : Token} {tag : TypeTag} (hm : t.kind = .mark mark) (ht : u.kind = .typeTag tag) :
      TypeBehind mark [t, u] (some tag)

inductive Parameter : List Token → Param → Prop where
  | mk {t colon u : Token} {name : String} {tag : TypeTag} (hn : t.kind = .name name)
      (hc : colon.kind = .mark .colon) (ht : u.kind = .typeTag tag) :
      Parameter [t, colon, u] ⟨name, tag⟩

/-- Statements with any number of newlines before, between and behind them, and the token that
closes them. A statement may depend on the token behind it. -/
inductive Body (Statement : List Token → Token → Stmt → Prop) (closing : Token.Kind) :
    List Token → List Stmt → Prop where
  | close {t : Token} (hk : t.kind = closing) : Body Statement closing [t] []
  | newline {t : Token} {ts : List Token} {body : List Stmt} (hk : t.kind = .newline)
      (rest : Body Statement closing ts body) : Body Statement closing (t :: ts) body
  | statement {ts us : List Token} {next : Token} {first : Stmt} {body : List Stmt}
      (head : Statement ts next first) (rest : Body Statement closing (next :: us) body) :
      Body Statement closing (ts ++ next :: us) (first :: body)

inductive Block (Statement : List Token → Token → Stmt → Prop) : List Token → List Stmt → Prop where
  | mk {brace : Token} {ts : List Token} {body : List Stmt} (hb : brace.kind = .mark .openBrace)
      (rest : Body Statement (.mark .closeBrace) ts body) : Block Statement (brace :: ts) body

/-- What may follow the first block of a branch. -/
inductive Alternative (Statement : List Token → Token → Stmt → Prop) :
    List Token → Option (List Stmt) → Prop where
  | absent : Alternative Statement [] none
  | present {newlines ts : List Token} {word : Token} {no : List Stmt}
      (hn : ∀ t ∈ newlines, t.kind = .newline) (hw : word.kind = .keyword .elseWord)
      (block : Block Statement ts no) : Alternative Statement (newlines ++ word :: ts) (some no)

/-- The kinds of token behind a `return` without a value. -/
def endsReturn : Token.Kind → Bool
  | .newline | .mark .closeBrace | .endOfInput => true
  | _ => false

/-- The forms of a statement, given the token behind it, over those of the statements inside. -/
inductive StatementOver (Statement : List Token → Token → Stmt → Prop) :
    List Token → Token → Stmt → Prop where
  | declaration {word t assign next : Token} {ms as ts : List Token} {isMutable : Bool}
      {name : String} {type : Option TypeTag} {e : Expr} (hw : word.kind = .keyword .letWord)
      (hm : Flag .mutWord ms isMutable) (hn : t.kind = .name name)
      (ht : TypeBehind .colon as type) (ha : assign.kind = .mark .assign)
      (value : Expression ts e) :
      StatementOver Statement (word :: (ms ++ t :: (as ++ assign :: ts))) next
        (.assign name type isMutable e word.line)
  | reassignment {t assign next : Token} {ts : List Token} {name : String} {e : Expr}
      (hn : t.kind = .name name) (ha : assign.kind = .mark .assign) (value : Expression ts e) :
      StatementOver Statement (t :: assign :: ts) next (.assign name none true e t.line)
  | branch {word next : Token} {ts ys ns : List Token} {e : Expr} {yes : List Stmt}
      {no : Option (List Stmt)} (hw : word.kind = .keyword .ifWord) (condition : Expression ts e)
      (block : Block Statement ys yes) (alternative : Alternative Statement ns no) :
      StatementOver Statement (word :: (ts ++ (ys ++ ns))) next (.branch e yes no word.line)
  | loop {word next : Token} {ts us : List Token} {e : Expr} {body : List Stmt}
      (hw : word.kind = .keyword .whileWord) (condition : Expression ts e)
      (block : Block Statement us body) :
      StatementOver Statement (word :: (ts ++ us)) next (.loop e body word.line)
  | function {word t next : Token} {ps as ts : List Token} {name : String} {params : List Param}
      {returns : Option TypeTag} {body : List Stmt} (hw : word.kind = .keyword .fnWord)
      (hn : t.kind = .name name) (hp : Listed Parameter ps params)
      (hr : TypeBehind .arrow as returns) (block : Block Statement ts body) :
      StatementOver Statement (word :: t :: (ps ++ (as ++ ts))) next
        (.function name params returns body word.line)
  | leave {word next : Token} (hw : word.kind = .keyword .returnWord)
      (hnext : endsReturn next.kind = true) :
      StatementOver Statement [word] next (.leave none word.line)
  | leaveValue {word next : Token} {ts : List Token} {e : Expr}
      (hw : word.kind = .keyword .returnWord) (value : Expression ts e) :
      StatementOver Statement (word :: ts) next (.leave (some e) word.line)
  | print {word left right next : Token} {ts : List Token} {e : Expr}
      (hw : word.kind = .keyword .printWord) (hl : left.kind = .mark .openParen)
      (value : Expression ts e) (hr : right.kind = .mark .closeParen) :
      StatementOver Statement (word :: left :: (ts ++ [right])) next (.print e word.line)
  | call {t next : Token} {ts : List Token} {e : Expr} (h : Call Expression (t :: ts) e) :
      StatementOver Statement (t :: ts) next (.expression e t.line)

inductive Statement : List Token → Token → Stmt → Prop where
  | mk {ts : List Token} {next : Token} {s : Stmt} (h : StatementOver Statement ts next s) :
      Statement ts next s

/-- A program goes on to the token for the end. -/
abbrev Program : List Token → List Stmt → Prop :=
  Body Statement .endOfInput

/-- An argument by induction on the tree: a relation that the forms of a primary expression keep
holds of every primary expression. What lies between `Primary` and itself is built by combinators,
and its motive is the same built from the relation. -/
theorem Primary.least {P : List Token → Expr → Prop}
    (hP : ∀ {ts e}, PrimaryOver (ExpressionOver P) ts e → P ts e) {ts : List Token} {e : Expr}
    (h : Primary ts e) : P ts e := by
  refine @Primary.rec (fun ts e _ => P ts e) (fun ts e _ => PrimaryOver (ExpressionOver P) ts e)
    (fun ts e _ => Call (ExpressionOver P) ts e) (fun ts e _ => ExpressionOver P ts e)
    (fun ts es _ => Listed (ExpressionOver P) ts es)
    (fun ts e _ => Chain .additive (Chain .multiplicative P) ts e)
    (fun ts es _ => Separated (ExpressionOver P) ts es)
    (fun ts e _ => Chain .multiplicative P ts e)
    ?_ ?_ ?_ ?_ ?_ ?_ ?_ ?_ ?_ ?_ ?_ ?_ ?_ ?_ ?_ ?_ _ _ h
  case refine_1 => exact fun _ ih => hP ih
  case refine_2 => exact .literal
  case refine_3 => exact .var
  case refine_4 => exact fun _ ih => .call ih
  case refine_5 => exact fun hl _ hr ih => .group hl ih hr
  case refine_6 => exact fun hn _ ih => .mk hn ih
  case refine_9 => exact .empty
  case refine_10 => exact fun hl _ hr ih => .items hl ih hr
  case refine_13 => exact fun _ ih => .one ih
  case refine_14 => exact fun _ hc _ ih ih' => .more ih hc ih'
  case refine_7 | refine_11 | refine_15 => exact fun _ ih => .operand ih
  case refine_8 | refine_12 | refine_16 => exact fun _ ho hl _ ih ih' => .operation ih ho hl ih'

theorem Statement.least {P : List Token → Token → Stmt → Prop}
    (hP : ∀ {ts next s}, StatementOver P ts next s → P ts next s) {ts : List Token} {next : Token}
    {s : Stmt} (h : Statement ts next s) : P ts next s := by
  refine @Statement.rec (fun ts next s _ => P ts next s)
    (fun ts next s _ => StatementOver P ts next s) (fun ts body _ => Block P ts body)
    (fun ts no _ => Alternative P ts no) (fun ts body _ => Body P (.mark .closeBrace) ts body)
    ?_ ?_ ?_ ?_ ?_ ?_ ?_ ?_ ?_ ?_ ?_ ?_ ?_ ?_ ?_ ?_ _ _ _ h
  case refine_1 => exact fun _ ih => hP ih
  case refine_2 => exact .declaration
  case refine_3 => exact .reassignment
  case refine_4 => exact fun hw hc _ _ ih ih' => .branch hw hc ih ih'
  case refine_5 => exact fun hw hc _ ih => .loop hw hc ih
  case refine_6 => exact fun hw hn hp hr _ ih => .function hw hn hp hr ih
  case refine_7 => exact .leave
  case refine_8 => exact .leaveValue
  case refine_9 => exact .print
  case refine_10 => exact .call
  case refine_11 => exact fun hb _ ih => .mk hb ih
  case refine_12 => exact .absent
  case refine_13 => exact fun hn hw _ ih => .present hn hw ih
  case refine_14 => exact .close
  case refine_15 => exact fun hk _ ih => .newline hk ih
  case refine_16 => exact fun _ _ ih ih' => .statement ih ih'

theorem Body.exists_cons {G : List Token → Token → Stmt → Prop} {closing : Token.Kind}
    {ts : List Token} {body : List Stmt} (h : Body G closing ts body) : ∃ t us, ts = t :: us := by
  cases h with
  | close | newline => exact ⟨_, _, rfl⟩
  | @statement ts =>
    cases ts with
    | nil => exact ⟨_, _, rfl⟩
    | cons t ts => exact ⟨t, _, rfl⟩

/-- The tokens up to the first token for the end, with it. -/
def upToEnd (tokens : List Token) : List Token :=
  tokens.takeWhile (·.kind ≠ .endOfInput) ++ (tokens.dropWhile (·.kind ≠ .endOfInput)).take 1

end Scriptlet.Grammar
