import Mathlib.Data.List.Induction
import Reckoner.Formula.Parser

/-!
# The grammar of formulas

`Derives` is the grammar of sums, terms and factors over tokens, each phrase with its tree.
`derives_iff_chain` says that operators of one precedence fold to the left. `operatorsIn` and
`nesting` measure what the limits of the reader are about.
-/

namespace Reckoner.Formula

/-- The ranks of phrases, by the operators that stand in them outside of parentheses. -/
inductive Rank where
  | sum
  | term
  | factor
  deriving DecidableEq

namespace Rank

/-- Sums have `+` and `-` between their operands, terms have `*` and `/`. -/
def joins : Rank → Operator → Bool
  | sum, op => op.isSum
  | term, op => !op.isSum
  | factor, _ => false

/-- The operands of a sum are terms, those of a term are factors. -/
def operand : Rank → Rank
  | sum => term
  | term | factor => factor

end Rank

/-- A factor is a number or a sum in parentheses; a phrase of another rank is an operand or a phrase
with one of its operators and one more operand behind it. -/
inductive Derives : Rank → List Token → Formula → Prop
  | number (x : Float) : Derives .factor [.number x] (.number x)
  | group {ts : List Token} {f : Formula} :
      Derives .sum ts f → Derives .factor (.leftParen :: ts ++ [.rightParen]) f
  | single {rank : Rank} {ts : List Token} {f : Formula} :
      rank ≠ .factor → Derives rank.operand ts f → Derives rank ts f
  | link {rank : Rank} {ts us : List Token} {op : Operator} {l r : Formula} :
      rank.joins op = true → Derives rank ts l → Derives rank.operand us r →
      Derives rank (ts ++ .operator op :: us) (.binary l op r)

/-! ### Chains of one precedence -/

structure Link where
  op : Operator
  tokens : List Token
  operand : Formula

def chainTokens (links : List Link) : List Token :=
  links.flatMap fun x => .operator x.op :: x.tokens

/-- The links attached to a first operand one after the other. -/
def chainTree (first : Formula) (links : List Link) : Formula :=
  links.foldl (fun f x => .binary f x.op x.operand) first

theorem chainTokens_append (links : List Link) (x : Link) :
    chainTokens (links ++ [x]) = chainTokens links ++ .operator x.op :: x.tokens := by
  simp [chainTokens]

theorem chainTree_append (first : Formula) (links : List Link) (x : Link) :
    chainTree first (links ++ [x]) = .binary (chainTree first links) x.op x.operand := by
  simp [chainTree]

/-- A sum is a term with any number of `+` and `-` and terms behind it, folded to the left, and a
term is a chain of factors in the same way. -/
theorem derives_iff_chain {rank : Rank} (above : rank ≠ .factor) {ts : List Token} {f : Formula} :
    Derives rank ts f ↔ ∃ us first links, Derives rank.operand us first ∧
      (∀ x ∈ links, rank.joins x.op = true ∧ Derives rank.operand x.tokens x.operand) ∧
      ts = us ++ chainTokens links ∧ f = chainTree first links := by
  constructor
  · intro h
    induction h with
    | number | group => contradiction
    | single _ h => exact ⟨_, _, [], h, by simp, by simp [chainTokens], rfl⟩
    | @link rank ts us op l r joins _ right ihl _ =>
      obtain ⟨vs, first, links, head, members, rfl, rfl⟩ := ihl above
      refine ⟨vs, first, links ++ [⟨op, us, r⟩], head, ?_, ?_, ?_⟩
      · intro x member
        rcases List.mem_append.mp member with old | new
        · exact members x old
        · obtain rfl := List.mem_singleton.mp new
          exact ⟨joins, right⟩
      · rw [chainTokens_append, List.append_assoc]
      · rw [chainTree_append]
  · rintro ⟨us, first, links, head, members, rfl, rfl⟩
    induction links using List.reverseRecOn with
    | nil => simpa [chainTokens, chainTree] using Derives.single above head
    | append_singleton links x ih =>
      obtain ⟨joins, operand⟩ := members x (by simp)
      rw [chainTokens_append, chainTree_append, ← List.append_assoc]
      exact .link joins (ih fun y h => members y (by simp [h])) operand

/-! ### Size -/

def Token.isOperator : Token → Bool
  | .operator _ => true
  | _ => false

def operatorsIn (ts : List Token) : Nat :=
  ts.countP Token.isOperator

/-- Every operator of a phrase is one of its tree. -/
theorem Derives.operatorCount_eq {rank : Rank} {ts : List Token} {f : Formula}
    (h : Derives rank ts f) : f.operatorCount = operatorsIn ts := by
  induction h with
  | number => rfl
  | group _ ih => simpa [operatorsIn, List.countP_cons, Token.isOperator] using ih
  | single _ _ ih => exact ih
  | link _ _ _ ihl ihr =>
    rw [operatorCount, ihl, ihr]
    simp only [operatorsIn, List.countP_append, List.countP_cons, Token.isOperator, if_true]
    omega

/-- The most parentheses that are open at once, if `n` are open in front. -/
def deepest : Nat → List Token → Nat
  | n, [] => n
  | n, .leftParen :: ts => deepest (n + 1) ts
  | n, .rightParen :: ts => max n (deepest (n - 1) ts)
  | n, .number _ :: ts | n, .operator _ :: ts => deepest n ts

def nesting (ts : List Token) : Nat :=
  deepest 0 ts

theorem le_deepest (n : Nat) (ts : List Token) : n ≤ deepest n ts := by
  induction ts generalizing n with
  | nil => exact Nat.le_refl n
  | cons t ts ih =>
    have here := ih n
    have inside := ih (n + 1)
    cases t <;> simp only [deepest] <;> omega

/-- A phrase closes all parentheses that it opens. -/
theorem Derives.deepest_append {rank : Rank} {ts : List Token} {f : Formula}
    (h : Derives rank ts f) (n : Nat) (us : List Token) :
    deepest n (ts ++ us) = max (deepest n ts) (deepest n us) := by
  induction h generalizing n us with
  | number x =>
    have := le_deepest n us
    simp only [List.cons_append, List.nil_append, deepest]
    omega
  | @group ts f _ ih =>
    have closed := ih (n + 1) (.rightParen :: us)
    have alone := ih (n + 1) [.rightParen]
    have inner := le_deepest (n + 1) ts
    have outer := le_deepest n us
    simp only [List.cons_append, List.append_assoc, List.nil_append, deepest,
      Nat.add_sub_cancel] at closed alone ⊢
    omega
  | single _ _ ih => exact ih n us
  | @link rank ts vs op l r _ _ _ ihl ihr =>
    have whole := ihl n (.operator op :: (vs ++ us))
    have alone := ihl n (.operator op :: vs)
    have right := ihr n us
    simp only [List.append_assoc, List.cons_append, deepest] at whole alone ⊢
    omega

end Reckoner.Formula
