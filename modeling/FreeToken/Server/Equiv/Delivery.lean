import FreeToken.Server.Generation

/-!
# Delivery of a generation

What the blocks of a stream are for: a block for every stretch of reasoning or of content, and one
for every tool call.  The adapters of the wire protocols refine this machine.
-/

namespace FreeToken

inductive Block where
  | reasoning (text : Text)
  | content (text : Text)
  /-- A tool call, with the arguments so far.  Fragments may be held back until it closes. -/
  | call (name : Option Text) (ordinal : ℤ) (forwards : Bool) (args : Text)
deriving DecidableEq, Repr

namespace Block

def isReasoning : Block → Bool
  | reasoning _ => true
  | _ => false

def isContent : Block → Bool
  | content _ => true
  | _ => false

def add (text : Text) : Block → Block
  | reasoning t => reasoning (t ++ text)
  | content t => content (t ++ text)
  | k => k

end Block

/-- The blocks that are complete, and the open one. -/
structure Delivery where
  closed : List Block := []
  current : Option Block := none
deriving DecidableEq, Repr

namespace Delivery

variable (forwardAll : Bool) (d : Delivery)

def close : Delivery := ⟨d.closed ++ d.current.toList, none⟩

/-- Keep the open block if it is of a kind, or open a new one. -/
def ensure (kind : Block → Bool) (new : Block) : Delivery :=
  if d.current.any kind then d else { d.close with current := some new }

def add (text : Text) : Delivery := { d with current := d.current.map (Block.add text) }

def reasoning (text : Text) : Delivery :=
  if text = [] then d else (d.ensure Block.isReasoning (.reasoning [])).add text

def content (text : Text) : Delivery :=
  if text = [] then d else (d.ensure Block.isContent (.content [])).add text

def start (name : Option Text) (ordinal : ℤ) (stable : Bool) : Delivery :=
  { d.close with current := some (.call name ordinal (forwardAll || stable) []) }

def fragment (text : Text) : Delivery :=
  match d.current with
  | some (.call name ordinal true args) =>
      { d with current := some (.call name ordinal true (args ++ text)) }
  | _ => d

/-- The arguments of a call that closes: its final ones, if the fragments can be completed to them.
-/
def topped (args final : Text) : Text := if args <+: final then final else args

def call (c : ToolCallItem) : Delivery :=
  match d.current with
  | some (.call name ordinal forwards args) =>
    if ordinal = c.toolIndex then
      ⟨d.closed ++ [.call name ordinal forwards (topped args c.parameters)], none⟩
    else ⟨d.close.closed ++ [.call c.name c.toolIndex true c.parameters], none⟩
  | _ => ⟨d.close.closed ++ [.call c.name c.toolIndex true c.parameters], none⟩

def event : GenEvent → Delivery
  | .reasoningDelta text => d.reasoning text
  | .contentDelta text => d.content text
  | .toolCallStart index name stable => d.start forwardAll name index stable
  | .toolCallArgsDelta _ text => d.fragment text
  | .toolCallsDelta calls => calls.foldl call d

def item : StreamItem → Delivery
  | .keepalive => d
  | .event ev => d.event forwardAll ev

def blocks (items : List StreamItem) : List Block :=
  ((items.foldl (item forwardAll) d).close).closed

theorem ensure_isReasoning :
    ∃ t, (d.ensure Block.isReasoning (.reasoning [])).current = some (.reasoning t) := by
  unfold ensure
  split
  · rcases hd : d.current with _ | ⟨_ | _ | _⟩ <;> simp_all [Block.isReasoning]
  · simp

theorem ensure_isContent :
    ∃ t, (d.ensure Block.isContent (.content [])).current = some (.content t) := by
  unfold ensure
  split
  · rcases hd : d.current with _ | ⟨_ | _ | _⟩ <;> simp_all [Block.isContent]
  · simp

/-! ### The open call -/

end Delivery

/-- A call that has started and is not closed, and the fragments of it that have been forwarded. -/
structure StreamedCall where
  ordinal : ℤ
  forwards : Bool
  sent : Text
deriving DecidableEq, Repr

namespace StreamedCall

/-- The open call behind an event.  Text of any kind closes it. -/
def next (forwardAll : Bool) (o : Option StreamedCall) : GenEvent → Option StreamedCall
  | .reasoningDelta text | .contentDelta text => if text = [] then o else none
  | .toolCallStart index _ stable => some ⟨index, forwardAll || stable, []⟩
  | .toolCallArgsDelta _ text => o.map fun c => if c.forwards then { c with sent := c.sent ++ text }
    else c
  | .toolCallsDelta calls => if calls = [] then o else none

/-- An event that closes the open call brings arguments that extend its fragments. -/
def Extends (o : Option StreamedCall) : GenEvent → Prop
  | .toolCallsDelta calls =>
    ∀ c ∈ o, ∀ call ∈ calls.head?, c.ordinal = call.toolIndex → c.sent <+: call.parameters
  | _ => True

instance (o : Option StreamedCall) (ev : GenEvent) : Decidable (Extends o ev) := by
  cases ev <;> unfold Extends <;> infer_instance

/-- In a stream, the final arguments of each call that closes extend its fragments. -/
def TopsUp (forwardAll : Bool) : Option StreamedCall → List StreamItem → Prop
  | _, [] => True
  | o, .keepalive :: items => TopsUp forwardAll o items
  | o, .event ev :: items => Extends o ev ∧ TopsUp forwardAll (next forwardAll o ev) items

end StreamedCall

namespace Delivery

variable (forwardAll : Bool) (d : Delivery)

def streamed : Option StreamedCall :=
  match d.current with
  | some (.call _ ordinal forwards args) => some ⟨ordinal, forwards, args⟩
  | _ => none

theorem streamed_of_current_eq_none (h : d.current = none) : d.streamed = none := by
  simp [streamed, h]

theorem streamed_reasoning (text : Text) :
    (d.reasoning text).streamed = if text = [] then d.streamed else none := by
  unfold reasoning
  split
  · rfl
  · rcases h : d.current with _ | ⟨_ | _ | _⟩ <;>
      simp [ensure, h, Block.isReasoning, add, streamed, Block.add]

theorem streamed_content (text : Text) :
    (d.content text).streamed = if text = [] then d.streamed else none := by
  unfold content
  split
  · rfl
  · rcases h : d.current with _ | ⟨_ | _ | _⟩ <;>
      simp [ensure, h, Block.isContent, add, streamed, Block.add]

theorem streamed_fragment (text : Text) :
    (d.fragment text).streamed =
      d.streamed.map fun c => if c.forwards then { c with sent := c.sent ++ text } else c := by
  rcases h : d.current with _ | ⟨_ | _ | ⟨name, ordinal, forwards, args⟩⟩
  · simp [fragment, streamed, h]
  · simp [fragment, streamed, h]
  · simp [fragment, streamed, h]
  · cases forwards <;> simp [fragment, streamed, h]

theorem current_call (c : ToolCallItem) : (d.call c).current = none := by
  unfold call
  split
  · split <;> rfl
  · rfl

theorem streamed_foldl_call (calls : List ToolCallItem) :
    (calls.foldl call d).streamed = if calls = [] then d.streamed else none := by
  induction calls generalizing d with
  | nil => rfl
  | cons c calls ih =>
    rw [List.foldl_cons, ih, streamed_of_current_eq_none _ (d.current_call c)]
    simp

/-- The open call of a delivery is the one that the events leave open. -/
theorem streamed_event (ev : GenEvent) :
    (d.event forwardAll ev).streamed = StreamedCall.next forwardAll d.streamed ev := by
  cases ev with
  | reasoningDelta text => exact d.streamed_reasoning text
  | contentDelta text => exact d.streamed_content text
  | toolCallStart index name stable => rfl
  | toolCallArgsDelta index text => exact d.streamed_fragment text
  | toolCallsDelta calls => exact d.streamed_foldl_call calls

end Delivery

end FreeToken
