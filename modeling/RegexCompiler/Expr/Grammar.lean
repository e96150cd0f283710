import RegexCompiler.Expr.Basic

namespace RegexCompiler

inductive Nonterminal where
  | expression
  | term
  | factor
  | atom

/-- The grammar of expressions over tokens, with the tree that each derivation stands for: star binds
tighter than concatenation, concatenation tighter than alternation, both of these join to the left, and
groups only override this order. -/
inductive Derives : Nonterminal → List Token → Expr → Prop
  | literal (c : Char) : Derives .atom [.literal c] (.literal c)
  | group {ts : List Token} {e : Expr} :
    Derives .expression ts e → Derives .atom (.groupOpen :: ts ++ [.groupClose]) e
  | atom {ts : List Token} {e : Expr} : Derives .atom ts e → Derives .factor ts e
  | star {ts : List Token} {e : Expr} :
    Derives .factor ts e → Derives .factor (ts ++ [.operator .star]) (.star e)
  | factor {ts : List Token} {e : Expr} : Derives .factor ts e → Derives .term ts e
  | concat {ts us : List Token} {l r : Expr} :
    Derives .term ts l → Derives .factor us r → Derives .term (ts ++ us) (.concat l r)
  | term {ts : List Token} {e : Expr} : Derives .term ts e → Derives .expression ts e
  | alternation {ts us : List Token} {l r : Expr} : Derives .expression ts l → Derives .term us r →
    Derives .expression (ts ++ .operator .alternation :: us) (.alternation l r)

end RegexCompiler
