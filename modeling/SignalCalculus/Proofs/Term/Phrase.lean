import SignalCalculus.Proofs.Term.Reading

set_option autoImplicit false

namespace SignalCalculus

def Symbol.isMark : Symbol → Bool
  | .mark _ => true
  | _ => false

/-- A derivation of a phrase. -/
inductive Phrase where
  | leaf (symbol : Symbol) (plain : symbol.isMark = false)
  | app (fn arg : Phrase)
  | list (items : List Phrase)

namespace Phrase

mutual

def symbols : Phrase → List Symbol
  | leaf symbol _ => [symbol]
  | app fn arg => .ap :: (fn.symbols ++ arg.symbols)
  | list [] => [.mark .leftParen, .mark .rightParen]
  | list (first :: rest) => .mark .leftParen :: (first.symbols ++ closing rest)

/-- What follows the first item of a list: the other items, each after a comma, and the end. -/
def closing : List Phrase → List Symbol
  | [] => [.mark .rightParen]
  | item :: rest => .mark .comma :: (item.symbols ++ closing rest)

end

mutual

/-- The term of a phrase: the entry word is the variable -1, and a list is cells that end in
    `nil`. -/
def term : Phrase → Term
  | leaf symbol _ => if symbol = .fn .galaxy then .atom (.var (-1)) else .atom symbol
  | app fn arg => .app fn.term arg.term
  | list items => cells items

def cells : List Phrase → Term
  | [] => .fn .nil
  | item :: rest => .cell item.term (cells rest)

end

end Phrase

namespace Term

open Phrase (closing cells)

theorem leaf_eq_term {symbol : Symbol} (plain : symbol.isMark = false) :
    leaf symbol = (Phrase.leaf symbol plain).term := by
  rw [Phrase.term]
  split
  · rename_i h
    subst h
    rfl
  · rename_i h
    unfold leaf
    split
    · exact absurd rfl h
    · rfl

theorem read_of_plain {symbol : Symbol} (plain : symbol.isMark = false) (owed : List Owed) :
    read owed symbol = feed owed (leaf symbol) := by
  cases symbol with
  | mark m => cases plain
  | _ => rfl

theorem readAll_cons (owed : List Owed) (symbol : Symbol) (rest : List Symbol) (index : Nat) :
    readAll (.owing owed) (symbol :: rest) index =
      (read owed symbol).bind fun progress => readAll progress rest (index + 1) := rfl

mutual

theorem readAll_symbols (p : Phrase) (owed : List Owed) (rest : List Symbol) (index : Nat) :
    readAll (.owing owed) (p.symbols ++ rest) index =
      (feed owed p.term).bind fun progress =>
        readAll progress rest (index + p.symbols.length) := by
  match p with
  | .leaf symbol plain =>
    rw [Phrase.symbols, List.singleton_append, readAll_cons, read_of_plain plain,
      leaf_eq_term plain]
    rfl
  | .app fn arg =>
    have hlen : index + (Phrase.app fn arg).symbols.length =
        index + 1 + fn.symbols.length + arg.symbols.length := by
      rw [Phrase.symbols, List.length_cons, List.length_append]
      omega
    rw [hlen, Phrase.symbols, List.cons_append, List.append_assoc, readAll_cons]
    change readAll (.owing (.function :: owed)) (fn.symbols ++ (arg.symbols ++ rest)) _ = _
    rw [readAll_symbols fn]
    change readAll (.owing (.argument fn.term :: owed)) (arg.symbols ++ rest) _ = _
    rw [readAll_symbols arg]
    rfl
  | .list [] => rfl
  | .list (first :: items) =>
    have hlen : index + (Phrase.list (first :: items)).symbols.length =
        index + 1 + first.symbols.length + (closing items).length := by
      rw [Phrase.symbols, List.length_cons, List.length_append]
      omega
    rw [hlen, Phrase.symbols, List.cons_append, List.append_assoc, readAll_cons]
    change readAll (.owing (.list [] .start :: owed)) (first.symbols ++ (closing items ++ rest)) _ = _
    rw [readAll_symbols first]
    exact readAll_closing items [first.term] owed rest _

theorem readAll_closing (later : List Phrase) (items : List Term) (owed : List Owed)
    (rest : List Symbol) (index : Nat) :
    readAll (.owing (.list items .element :: owed)) (closing later ++ rest) index =
      (feed owed (listOnto (cells later) items)).bind fun progress =>
        readAll progress rest (index + (closing later).length) := by
  match later with
  | [] => rfl
  | item :: later =>
    have hlen : index + (closing (item :: later)).length =
        index + 1 + item.symbols.length + (closing later).length := by
      rw [Phrase.closing, List.length_cons, List.length_append]
      omega
    rw [hlen, Phrase.closing, List.cons_append, List.append_assoc, readAll_cons]
    change readAll (.owing (.list items .comma :: owed)) (item.symbols ++ (closing later ++ rest)) _ = _
    rw [readAll_symbols item]
    exact readAll_closing later (item.term :: items) owed rest _

end

end Term

end SignalCalculus
