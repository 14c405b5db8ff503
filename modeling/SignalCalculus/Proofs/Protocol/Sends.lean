import SignalCalculus.Proofs.Protocol.Delivery
import SignalCalculus.Proofs.Protocol.Replies

set_option autoImplicit false

namespace SignalCalculus

inductive Layout (α : Type) where
  | leaf (a : α)
  | cell (left right : Layout α)

namespace Layout

variable {α : Type}

def leaves : Layout α → List α
  | leaf a => [a]
  | cell left right => left.leaves ++ right.leaves

def term (atLeaf : α → Term) : Layout α → Term
  | leaf a => atLeaf a
  | cell left right => .cell (left.term atLeaf) (right.term atLeaf)

def value (atLeaf : α → Value) : Layout α → Value
  | leaf a => atLeaf a
  | cell left right => .pair (left.value atLeaf) (right.value atLeaf)

end Layout

/-- A value that is sent, with a reply that is the message of a value. -/
structure Sending where
  sent : Value
  reply : List Char
  answer : Value
  reads : Wire.demodulateChars reply = .ok answer

namespace Sending

def term (sending : Sending) : Term := .app (.fn .send) (.ofValue sending.sent)

def request (sending : Sending) : List Char := Wire.valueBits sending.sent

def trip (sending : Sending) : Trip := (sending.request, sending.reply)

end Sending

namespace Direct

variable {book : Book}

theorem delivers_sending (sending : Sending) :
    Delivers book sending.term [sending.trip] sending.answer :=
  (denotes_ofValue sending.sent).delivers.send sending.reads

/-- A layout delivers what its leaves deliver, after their requests from left to right. -/
theorem delivers_layout {α : Type} {term : α → Term} {trip : α → Trip} {answer : α → Value}
    (h : ∀ a, Delivers book (term a) [trip a] (answer a)) (layout : Layout α) :
    Delivers book (layout.term term) (layout.leaves.map trip) (layout.value answer) := by
  induction layout with
  | leaf a => exact h a
  | cell left right ihl ihr =>
    rw [Layout.leaves, List.map_append]
    exact ihl.cell ihr

end Direct

namespace Desk

/-- Whatever was done against the book before, the evaluation of a layout of sends sends the values
    of its leaves from left to right, each of them once, and returns the same layout with the answer
    of each leaf in its place. -/
theorem returns_layout_of_sends {book : Book} {desk : Desk} (h : Reached book desk) (id : Nat)
    (layout : Layout Sending) :
    Returns book id desk (layout.term Sending.term) (layout.leaves.map Sending.reply)
      (layout.leaves.map Sending.request) (.ofValue (layout.value Sending.answer)) := by
  have hdelivers := Direct.delivers_layout (@Direct.delivers_sending book) layout
  have hreturns := h.returns_of_tells id hdelivers []
  rw [List.map_map, List.map_map, List.append_nil] at hreturns
  exact hreturns

def emptySending (answer : Value) : Sending :=
  ⟨.nil, Wire.valueBits answer, answer, Wire.demodulateChars_valueBits answer⟩

/-- Three equal sends, two of them in a cell on the left, with three replies: a number, a list and
    the empty list. -/
theorem returns_equal_sends :
    Reached {} (fresh 0 {}) ∧
    Returns {} 0 (fresh 0 {})
      (.cell (.cell (.app (.fn .send) (.fn .nil)) (.app (.fn .send) (.fn .nil)))
        (.app (.fn .send) (.fn .nil)))
      [Wire.valueBits (.num 5), Wire.valueBits (.pair (.num 1) .nil), Wire.valueBits .nil]
      [['0', '0'], ['0', '0'], ['0', '0']]
      (.cell (.cell (.num 5) (.cell (.num 1) (.fn .nil))) (.fn .nil)) := by
  have hfresh : Reached {} (fresh 0 {}) := ⟨0, {}, [], [], .nil _⟩
  exact ⟨hfresh, returns_layout_of_sends hfresh 0
    (.cell (.cell (.leaf (emptySending (.num 5))) (.leaf (emptySending (.pair (.num 1) .nil))))
      (.leaf (emptySending .nil)))⟩

end Desk

end SignalCalculus
