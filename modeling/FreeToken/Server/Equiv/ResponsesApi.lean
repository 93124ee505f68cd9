import FreeToken.Lib.BlockStream
import FreeToken.Server.ResponsesApi
import FreeToken.Server.Equiv.Delivery
import Mathlib.Data.List.Forall2

/-!
# Reading the Responses stream

What a strict client of the Responses protocol reads: numbered frames, the items of the output one
after the other, with the content parts of a message inside it, and one terminal event.  The adapter
keeps such a client going as long as the final arguments of a call that closes extend its fragments.
-/

namespace FreeToken

open List

/-! ### The client -/

inductive ItemPart where
  | content (id : Text) (m : BlockMark Text (RunPart Char) Text)
  | reasoning (id : Text) (contentIndex : ℕ) (p : RunPart Char)
  | arguments (id : Text) (name : Option Text) (p : RunPart Char)
deriving DecidableEq, Repr

inductive ItemBody where
  | reasoning (id : Text) (run : RunReader Char)
  | message (id : Text) (parts : BlockReader (RunReader Char) Text)
  | functionCall (id callId name : Text) (run : RunReader Char)
deriving DecidableEq, Repr

namespace ItemBody

/-- An item that is added has nothing inside. -/
def init : ResponseItem → Option ItemBody
  | .reasoning id content _ => if content = [] then some (reasoning id {}) else none
  | .message id content _ => if content = [] then some (message id {}) else none
  | .functionCall id callId name arguments _ =>
    if arguments = [] then some (functionCall id callId name {}) else none

def step (b : ItemBody) (p : ItemPart) : Option ItemBody :=
  match b, p with
  | reasoning id run, .reasoning id' contentIndex p =>
    if id' = id ∧ contentIndex = 0 then (run.read p).map (reasoning id) else none
  | message id parts, .content id' m =>
    if id' = id then (BlockReader.read RunReader.body parts m).map (message id) else none
  | functionCall id callId name run, .arguments id' name' p =>
    if id' = id ∧ name'.all (· = name) then (run.read p).map (functionCall id callId name) else none
  | _, _ => none

/-- An item that is done says again what has arrived. -/
def close (b : ItemBody) (item : ResponseItem) : Option ResponseItem :=
  match b, item with
  | reasoning id run, .reasoning id' content _ =>
    if id' = id ∧ run.isDone ∧ content = [run.text] then some item else none
  | message id parts, .message id' content _ =>
    if id' = id ∧ parts.current.isNone ∧ content = parts.closed then some item else none
  | functionCall id callId name run, .functionCall id' callId' name' arguments _ =>
    if id' = id ∧ callId' = callId ∧ name' = name ∧ run.isDone ∧ arguments = run.text then some item
    else none
  | _, _ => none

def body : BlockBody ItemBody ResponseItem ItemPart ResponseItem ResponseItem where
  init := init
  step := step
  close := close

end ItemBody

def ResponsesEvent.mark : ResponsesEvent → Option (BlockMark ResponseItem ItemPart ResponseItem)
  | .outputItemAdded index item => some (.start index item)
  | .outputItemDone index item => some (.stop index item)
  | .contentPartAdded id index contentIndex text =>
    some (.part index (.content id (.start contentIndex text)))
  | .contentPartDone id index contentIndex text =>
    some (.part index (.content id (.stop contentIndex text)))
  | .outputTextDelta id index contentIndex delta =>
    some (.part index (.content id (.part contentIndex (.delta delta))))
  | .outputTextDone id index contentIndex text =>
    some (.part index (.content id (.part contentIndex (.done text))))
  | .reasoningTextDelta id index contentIndex delta =>
    some (.part index (.reasoning id contentIndex (.delta delta)))
  | .reasoningTextDone id index contentIndex text =>
    some (.part index (.reasoning id contentIndex (.done text)))
  | .functionCallArgumentsDelta id index delta =>
    some (.part index (.arguments id none (.delta delta)))
  | .functionCallArgumentsDone id index name arguments =>
    some (.part index (.arguments id (some name) (.done arguments)))
  | _ => none

inductive ResponsePhase where
  | fresh
  | streaming
  | ended
deriving DecidableEq, Repr

structure ResponsesClient where
  phase : ResponsePhase := .fresh
  items : BlockReader ItemBody ResponseItem := {}
deriving DecidableEq, Repr

variable {evs : List ResponsesEvent} {ev : ResponsesEvent}

namespace ResponsesClient

/-- Read what an event says about the items. -/
def readItem (c : ResponsesClient) (m : Option (BlockMark ResponseItem ItemPart ResponseItem)) :
    Option ResponsesClient :=
  if c.phase = .streaming then
    (m.bind (BlockReader.read ItemBody.body c.items)).map fun items => { c with items }
  else none

/-- Go from phase `p` to phase `q` with a snapshot of all items, when no item is open. -/
def advance (c : ResponsesClient) (p q : ResponsePhase) (r : Response) : Option ResponsesClient :=
  if c.phase = p ∧ c.items.current.isNone ∧ r.output = c.items.closed then some
    { c with phase := q }
  else none

/-- Read an event, unless it is out of place. -/
def readEvent (c : ResponsesClient) : ResponsesEvent → Option ResponsesClient
  | .created r => c.advance .fresh .streaming r
  | .inProgress r => if c.phase = .streaming ∧ r.output = c.items.closed then some c else none
  | .completed r | .incomplete r | .failed r => c.advance .streaming .ended r
  | ev => c.readItem ev.mark

def readEvents (c : ResponsesClient) (evs : List ResponsesEvent) : Option ResponsesClient :=
  evs.foldlM readEvent c

/-- Read some frames, the first of which has number `n`. -/
def readAll (n : ℕ) (c : ResponsesClient) : List ResponsesFrame → Option ResponsesClient
  | [] => some c
  | f :: fs => if f.sequenceNumber = n then (c.readEvent f.event).bind (readAll (n + 1) · fs)
    else none

/-- A stream of frames is well formed if the client reads it to its end, after which no frame is
read. -/
def WellFormed (fs : List ResponsesFrame) : Prop :=
  ∃ bs, readAll 0 {} fs = some ⟨.ended, ⟨bs, none⟩⟩

theorem readAll_number (n : ℕ) (c : ResponsesClient) (evs : List ResponsesEvent) :
    readAll n c (ResponsesFrame.number n evs) = c.readEvents evs := by
  induction evs generalizing n c with
  | nil => rfl
  | cons ev evs ih =>
    simp only [ResponsesFrame.number, readAll, ↓reduceIte, readEvents, foldlM_cons,
      Option.bind_eq_bind]
    congr 1
    funext c'
    exact ih (n + 1) c'

theorem readEvents_cons {c c' : ResponsesClient} (h : c.readEvent ev = some c')
    (evs : List ResponsesEvent) : c.readEvents (ev :: evs) = c'.readEvents evs := by
  simp [readEvents, h]

theorem readEvents_singleton (c : ResponsesClient) (ev : ResponsesEvent) :
    c.readEvents [ev] = c.readEvent ev := by
  cases h : c.readEvent ev <;> simp [readEvents, h]

theorem readEvents_append {c c' : ResponsesClient}
    (h : c.readEvents evs = some c') (rest : List ResponsesEvent) :
    c.readEvents (evs ++ rest) = c'.readEvents rest := by
  simp only [readEvents] at h ⊢
  rw [foldlM_append, h]
  rfl

theorem readEvents_append_eq_none {c : ResponsesClient}
    (h : c.readEvents evs = none) (rest : List ResponsesEvent) :
    c.readEvents (evs ++ rest) = none := by
  simp only [readEvents] at h ⊢
  rw [foldlM_append, h]
  rfl

theorem advance_streaming {bs : List ResponseItem} {r : Response} (h : r.output = bs) :
    advance ⟨.streaming, ⟨bs, none⟩⟩ .streaming .ended r = some ⟨.ended, ⟨bs, none⟩⟩ := by
  simp [advance, h]

theorem readEvent_mark {bs bs' : BlockReader ItemBody ResponseItem}
    {m : BlockMark ResponseItem ItemPart ResponseItem} (hm : ev.mark = some m)
    (h : BlockReader.read ItemBody.body bs m = some bs') :
    readEvent ⟨.streaming, bs⟩ ev = some ⟨.streaming, bs'⟩ := by
  cases ev <;> simp_all [ResponsesEvent.mark, readEvent, readItem]

end ResponsesClient

/-! ### The adapter and its client -/

def ResponseItem.Shows : ResponseItem → Block → Prop
  | .reasoning _ content _, .reasoning t => content = [t]
  | .message _ content _, .content t => content = [t]
  | .functionCall _ _ name arguments _, .call name' _ _ args => name = name'.getD [] ∧
    arguments = args
  | _, _ => False

/-- The open item, in the adapter, for the client and in the answer. -/
def CurrentItem.Open : CurrentItem → ItemBody → Block → Prop
  | .reasoning id t, b, k => b = .reasoning id ⟨t, false⟩ ∧ k = .reasoning t
  | .message id t, b, k => b = .message id ⟨[], some ⟨t, false⟩⟩ ∧ k = .content t
  | .functionCall id callId name args ordinal, b, k =>
    b = .functionCall id callId name ⟨args, false⟩ ∧
      ∃ name', name = Option.getD name' [] ∧ k = .call name' ordinal true args

variable {name : Option Text} {forwards : Bool} {ordinal : ℤ} {args final t : Text}

namespace ResponsesStream

open ResponsesClient

/-- A client in the middle of a stream, that has been shown the blocks of an answer. -/
inductive Follows (s : ResponsesStream) : ResponsesClient → Delivery → Prop
  | idle {ks : List Block} (hi : s.outputIndex = s.outputItems.length) (hc : s.current = none)
      (hs : List.Forall₂ ResponseItem.Shows s.outputItems ks) :
      Follows s ⟨.streaming, ⟨s.outputItems, none⟩⟩ ⟨ks, none⟩
  | busy {ks : List Block} (hi : s.outputIndex = s.outputItems.length) {cur : CurrentItem}
      {b : ItemBody} {k : Block} (hc : s.current = some cur) (ho : cur.Open b k)
      (hs : List.Forall₂ ResponseItem.Shows s.outputItems ks) :
      Follows s ⟨.streaming, ⟨s.outputItems, some b⟩⟩ ⟨ks, some k⟩

/-- A client reads what a step sends, and is shown `d` by then. -/
def Reaches (c : ResponsesClient) (r : ResponsesStream × List ResponsesEvent) (d : Delivery) :
    Prop :=
  ∃ c', c.readEvents r.2 = some c' ∧ Follows r.1 c' d

variable {s s' : ResponsesStream} {c : ResponsesClient} {d d' : Delivery}
  {es fs : List ResponsesEvent}

theorem Follows.reaches (h : Follows s c d) : Reaches c (s, []) d := ⟨c, rfl, h⟩

theorem Reaches.append (h : Reaches c (s, es) d)
    (hf : ∀ c', Follows s c' d → Reaches c' (s', fs) d') : Reaches c (s', es ++ fs) d' := by
  obtain ⟨c₁, h₁, f₁⟩ := h
  obtain ⟨c₂, h₂, f₂⟩ := hf c₁ f₁
  refine ⟨c₂, ?_, f₂⟩
  show c.readEvents (es ++ fs) = some c₂
  rw [readEvents_append h₁]
  exact h₂

/-! #### Reading the events of an item -/

section Reading

variable {bs : List ResponseItem} {b b' : ItemBody} {ev : ResponsesEvent} {p : ItemPart}
  {item item' : ResponseItem}

theorem readEvent_added (h : ItemBody.init item = some b) :
    readEvent ⟨.streaming, ⟨bs, none⟩⟩ (.outputItemAdded bs.length item) =
      some ⟨.streaming, ⟨bs, some b⟩⟩ :=
  readEvent_mark rfl (BlockReader.read_start rfl h)

theorem readEvent_part (hm : ev.mark = some (.part bs.length p)) (h : b.step p = some b') :
    readEvent ⟨.streaming, ⟨bs, some b⟩⟩ ev = some ⟨.streaming, ⟨bs, some b'⟩⟩ :=
  readEvent_mark hm (BlockReader.read_part rfl h)

theorem readEvent_part_eq_none (hm : ev.mark = some (.part bs.length p)) (h : b.step p = none) :
    readEvent ⟨.streaming, ⟨bs, some b⟩⟩ ev = none := by
  have hr : BlockReader.read ItemBody.body ⟨bs, some b⟩ (.part bs.length p) = none :=
    BlockReader.read_part_eq_none h
  cases ev <;> simp_all [ResponsesEvent.mark, readEvent, readItem]

theorem readEvent_done (h : b.close item = some item') :
    readEvent ⟨.streaming, ⟨bs, some b⟩⟩ (.outputItemDone bs.length item) =
      some ⟨.streaming, ⟨bs ++ [item'], none⟩⟩ :=
  readEvent_mark rfl (BlockReader.read_stop rfl h)

end Reading

/-- The events that close an item are read, and show its block. -/
theorem readEvents_closing (bs : List ResponseItem) {cur : CurrentItem} {b : ItemBody} {k : Block}
    (reason : Text) (ho : cur.Open b k) :
    ∃ item, (closing reason bs.length cur).2 = item ∧ item.Shows k ∧
      readEvents ⟨.streaming, ⟨bs, some b⟩⟩
        ((closing reason bs.length cur).1 ++ [.outputItemDone bs.length item]) =
          some ⟨.streaming, ⟨bs ++ [item], none⟩⟩ := by
  cases cur with
  | reasoning id t =>
    obtain ⟨rfl, rfl⟩ := ho
    refine ⟨_, rfl, rfl, ?_⟩
    have hdone : ItemBody.step (.reasoning id ⟨t, false⟩) (.reasoning id 0 (.done t)) =
        some (.reasoning id ⟨t, true⟩) := by simp [ItemBody.step]
    simp only [closing, cons_append, nil_append]
    rw [readEvents_cons (readEvent_part rfl hdone), readEvents_singleton]
    exact readEvent_done (by simp [ItemBody.close])
  | message id t =>
    obtain ⟨rfl, rfl⟩ := ho
    refine ⟨_, rfl, rfl, ?_⟩
    have hdone :
        ItemBody.step (.message id ⟨[], some ⟨t, false⟩⟩) (.content id (.part 0 (.done t))) =
        some (.message id ⟨[], some ⟨t, true⟩⟩) := by
      simp [ItemBody.step, BlockReader.read, RunReader.body]
    have hpart : ItemBody.step (.message id ⟨[], some ⟨t, true⟩⟩) (.content id (.stop 0 t)) =
        some (.message id ⟨[t], none⟩) := by
      simp [ItemBody.step, BlockReader.read, RunReader.body]
    simp only [closing, cons_append, nil_append]
    rw [readEvents_cons (readEvent_part rfl hdone), readEvents_cons (readEvent_part rfl hpart),
      readEvents_singleton]
    exact readEvent_done (by simp [ItemBody.close])
  | functionCall id callId name args ordinal =>
    obtain ⟨rfl, name', hn, rfl⟩ := ho
    refine ⟨_, rfl, ⟨hn, rfl⟩, ?_⟩
    have hdone : ItemBody.step (.functionCall id callId name ⟨args, false⟩)
        (.arguments id (some name) (.done args)) =
          some (.functionCall id callId name ⟨args, true⟩) := by
      simp [ItemBody.step]
    simp only [closing, cons_append, nil_append]
    rw [readEvents_cons (readEvent_part rfl hdone), readEvents_singleton]
    exact readEvent_done (by simp [ItemBody.close])

theorem Follows.closeCurrent (reason : Text) (h : Follows s c d) :
    Reaches c (s.closeCurrent reason) d.close ∧ (s.closeCurrent reason).1.current = none := by
  cases h with
  | idle hi hc hs =>
    have hstep : s.closeCurrent reason = (s, []) := by simp [ResponsesStream.closeCurrent, hc]
    rw [hstep]
    refine ⟨?_, hc⟩
    have hidle : Follows s ⟨.streaming, ⟨s.outputItems, none⟩⟩ ⟨_, none⟩ := .idle hi hc hs
    simpa [Delivery.close] using hidle.reaches
  | @busy ks hi cur b k hc ho hs =>
    obtain ⟨item, hitem, hshows, hread⟩ := readEvents_closing s.outputItems reason ho
    have hstep : s.closeCurrent reason =
        ({ s with outputItems := s.outputItems ++ [item], outputIndex := s.outputIndex + 1, current := none },
          (closing reason s.outputItems.length cur).1 ++ [.outputItemDone s.outputItems.length item]) := by
      simp [ResponsesStream.closeCurrent, hc, hi, hitem]
    rw [hstep]
    refine ⟨⟨_, hread, ?_⟩, rfl⟩
    have hs' : List.Forall₂ ResponseItem.Shows (s.outputItems ++ [item]) (ks ++ [k]) :=
      rel_append hs (.cons hshows .nil)
    have hi' : s.outputIndex + 1 = (s.outputItems ++ [item]).length := by simp [hi]
    exact Follows.idle hi' rfl hs'

variable (uuid : ℕ → Text)

theorem Follows.startReasoning (h : Follows s c d) (hc : s.current = none) :
    Reaches c (s.startReasoning uuid) { d with current := some (.reasoning []) } := by
  cases h with
  | idle hi _ hs =>
    refine ⟨⟨.streaming, ⟨s.outputItems, some (.reasoning ("rs_".toList ++ uuid s.drawn) {})⟩⟩, ?_, ?_⟩
    · show readEvents _ [.outputItemAdded s.outputIndex _] = _
      rw [readEvents_singleton, hi]
      exact readEvent_added rfl
    · apply Follows.busy
      · exact hi
      · rfl
      · exact ⟨rfl, rfl⟩
      · exact hs
  | busy hi hc' ho hs => simp [hc] at hc'

theorem Follows.startMessage (h : Follows s c d) (hc : s.current = none) :
    Reaches c (s.startMessage uuid) { d with current := some (.content []) } := by
  cases h with
  | idle hi _ hs =>
    refine ⟨⟨.streaming, ⟨s.outputItems, some (.message ("msg_".toList ++ uuid s.drawn) ⟨[], some {}⟩)⟩⟩,
      ?_, ?_⟩
    · show readEvents _ [.outputItemAdded s.outputIndex _, .contentPartAdded _ s.outputIndex 0 []] =
        _
      rw [hi, readEvents_cons (readEvent_added rfl), readEvents_singleton]
      exact readEvent_part rfl (by simp [ItemBody.step, BlockReader.read, RunReader.body])
    · apply Follows.busy
      · exact hi
      · rfl
      · exact ⟨rfl, rfl⟩
      · exact hs
  | busy hi hc' ho hs => simp [hc] at hc'

theorem Follows.startFunctionCall (name : Option Text) (ordinal : ℤ) (h : Follows s c d)
    (hc : s.current = none) :
    Reaches c (s.startFunctionCall uuid (name.getD []) ordinal)
      { d with current := some (.call name ordinal true []) } := by
  cases h with
  | idle hi _ hs =>
    refine ⟨⟨.streaming, ⟨s.outputItems, some (.functionCall ("fc_".toList ++ uuid s.drawn)
      ("call_".toList ++ (uuid (s.drawn + 1)).take 24) (name.getD []) {})⟩⟩, ?_, ?_⟩
    · show readEvents _ [.outputItemAdded s.outputIndex _] = _
      rw [readEvents_singleton, hi]
      exact readEvent_added rfl
    · apply Follows.busy
      · exact hi
      · rfl
      · exact ⟨rfl, name, rfl, rfl⟩
      · exact hs
  | busy hi hc' ho hs => simp [hc] at hc'

theorem Follows.openFunctionCall (name : Option Text) (ordinal : ℤ) (stable : Bool)
    (h : Follows s c d) :
    Reaches c (s.openFunctionCall uuid (name.getD []) ordinal)
      (d.start true name ordinal stable) := by
  apply (h.closeCurrent "stop".toList).1.append
  intro c' hc'
  exact hc'.startFunctionCall uuid name ordinal (h.closeCurrent "stop".toList).2

theorem Follows.addReasoning (text : Text) (h : Follows s c d)
    (hd : d.current = some (.reasoning t)) :
    Reaches c (s.addReasoning text) (d.add text) := by
  cases h with
  | idle hi hc hs => simp at hd
  | @busy ks hi cur b k hc ho hs =>
    obtain rfl := Option.some.inj hd
    cases cur with
    | reasoning id t' =>
      obtain ⟨rfl, ht⟩ := ho
      obtain rfl : t = t' := by injection ht
      have hstep : s.addReasoning text =
          ({ s with current := some (.reasoning id (t ++ text)) },
            [.reasoningTextDelta id s.outputItems.length 0 text]) := by
        simp [ResponsesStream.addReasoning, hc, hi]
      rw [hstep]
      refine ⟨⟨.streaming, ⟨s.outputItems, some (.reasoning id ⟨t ++ text, false⟩)⟩⟩, ?_, ?_⟩
      · rw [readEvents_singleton]
        exact readEvent_part rfl (by simp [ItemBody.step])
      · apply Follows.busy
        · exact hi
        · rfl
        · exact ⟨rfl, rfl⟩
        · exact hs
    | message id t' => simp [CurrentItem.Open] at ho
    | functionCall id callId name args ordinal => simp [CurrentItem.Open] at ho

theorem Follows.addContent (text : Text) (h : Follows s c d)
    (hd : d.current = some (.content t)) :
    Reaches c (s.addContent text) (d.add text) := by
  cases h with
  | idle hi hc hs => simp at hd
  | @busy ks hi cur b k hc ho hs =>
    obtain rfl := Option.some.inj hd
    cases cur with
    | reasoning id t' => simp [CurrentItem.Open] at ho
    | message id t' =>
      obtain ⟨rfl, ht⟩ := ho
      obtain rfl : t = t' := by injection ht
      have hstep : s.addContent text =
          ({ s with current := some (.message id (t ++ text)) },
            [.outputTextDelta id s.outputItems.length 0 text]) := by
        simp [ResponsesStream.addContent, hc, hi]
      rw [hstep]
      refine ⟨⟨.streaming, ⟨s.outputItems, some (.message id ⟨[], some ⟨t ++ text, false⟩⟩)⟩⟩, ?_,
        ?_⟩
      · rw [readEvents_singleton]
        exact readEvent_part rfl (by simp [ItemBody.step, BlockReader.read, RunReader.body])
      · apply Follows.busy
        · exact hi
        · rfl
        · exact ⟨rfl, rfl⟩
        · exact hs
    | functionCall id callId name args ordinal => simp [CurrentItem.Open] at ho

theorem Follows.inReasoning (h : Follows s c d) :
    s.inReasoning = d.current.any Block.isReasoning := by
  cases h with
  | idle hi hc hs => simp [ResponsesStream.inReasoning, hc]
  | @busy ks hi cur b k hc ho hs =>
    cases cur with
    | functionCall id callId name args ordinal =>
      obtain ⟨rfl, name', hn, rfl⟩ := ho
      simp [ResponsesStream.inReasoning, hc, Block.isReasoning]
    | _ =>
      obtain ⟨rfl, rfl⟩ := ho
      simp [ResponsesStream.inReasoning, hc, Block.isReasoning]

theorem Follows.inMessage (h : Follows s c d) : s.inMessage = d.current.any Block.isContent := by
  cases h with
  | idle hi hc hs => simp [ResponsesStream.inMessage, hc]
  | @busy ks hi cur b k hc ho hs =>
    cases cur with
    | functionCall id callId name args ordinal =>
      obtain ⟨rfl, name', hn, rfl⟩ := ho
      simp [ResponsesStream.inMessage, hc, Block.isContent]
    | _ =>
      obtain ⟨rfl, rfl⟩ := ho
      simp [ResponsesStream.inMessage, hc, Block.isContent]

theorem Follows.onReasoning (text : Text) (h : Follows s c d) :
    Reaches c (s.onReasoning uuid text) (d.reasoning text) := by
  by_cases ht : text = []
  · simp only [ResponsesStream.onReasoning, ht, ↓reduceIte, Delivery.reasoning]
    exact h.reaches
  · obtain ⟨t, hcur⟩ := d.ensure_isReasoning
    simp only [ResponsesStream.onReasoning, ht, ↓reduceIte, Delivery.reasoning, h.inReasoning]
    by_cases hin : d.current.any Block.isReasoning
    · simp only [Delivery.ensure, hin, ↓reduceIte] at hcur ⊢
      exact h.addReasoning text hcur
    · simp only [Delivery.ensure, hin, Bool.false_eq_true, ↓reduceIte] at hcur ⊢
      have hclosed := h.closeCurrent "stop".toList
      have hstart := hclosed.1.append fun c' hc' => hc'.startReasoning uuid hclosed.2
      exact hstart.append fun c' hc' => hc'.addReasoning text rfl

theorem Follows.onContent (text : Text) (h : Follows s c d) :
    Reaches c (s.onContent uuid text) (d.content text) := by
  by_cases ht : text = []
  · simp only [ResponsesStream.onContent, ht, ↓reduceIte, Delivery.content]
    exact h.reaches
  · obtain ⟨t, hcur⟩ := d.ensure_isContent
    simp only [ResponsesStream.onContent, ht, ↓reduceIte, Delivery.content, h.inMessage]
    by_cases hin : d.current.any Block.isContent
    · simp only [Delivery.ensure, hin, ↓reduceIte] at hcur ⊢
      exact h.addContent text hcur
    · simp only [Delivery.ensure, hin, Bool.false_eq_true, ↓reduceIte] at hcur ⊢
      have hclosed := h.closeCurrent "stop".toList
      have hstart := hclosed.1.append fun c' hc' => hc'.startMessage uuid hclosed.2
      exact hstart.append fun c' hc' => hc'.addContent text rfl

theorem Follows.current_call
    (h : Follows s c d) (hd : d.current = some (.call name ordinal forwards args)) :
    ∃ id callId, s.outputIndex = s.outputItems.length ∧ forwards = true ∧
      s.current = some (.functionCall id callId (name.getD []) args ordinal) ∧
      c = ⟨.streaming, ⟨s.outputItems, some (.functionCall id callId (name.getD []) ⟨args, false⟩)⟩⟩
        ∧
      List.Forall₂ ResponseItem.Shows s.outputItems d.closed := by
  cases h with
  | idle hi hc hs => simp at hd
  | @busy ks hi cur b k hc ho hs =>
    obtain rfl := Option.some.inj hd
    cases cur with
    | reasoning id t => simp [CurrentItem.Open] at ho
    | message id t => simp [CurrentItem.Open] at ho
    | functionCall id callId name' args' ordinal' =>
      obtain ⟨rfl, name₂, rfl, hk⟩ := ho
      injection hk with h₁ h₂ h₃ h₄
      subst h₁ h₂ h₃ h₄
      exact ⟨id, callId, hi, rfl, hc, rfl, hs⟩

theorem Follows.current_ne_call (h : Follows s c d)
    (hd : ∀ name ordinal forwards args, d.current ≠ some (.call name ordinal forwards args))
    (id callId name args : Text) (ordinal : ℤ) :
    s.current ≠ some (.functionCall id callId name args ordinal) := by
  intro hs
  cases h with
  | idle hi hc _ => simp [hc] at hs
  | busy hi hc ho _ =>
    obtain rfl := Option.some.inj (hc.symm.trans hs)
    obtain ⟨-, name', -, rfl⟩ := ho
    exact hd _ _ _ _ rfl

theorem Follows.addArgs
    (fragment : Text) (h : Follows s c d)
    (hd : d.current = some (.call name ordinal forwards args)) :
    Reaches c (s.onArgs fragment)
      { d with current := some (.call name ordinal forwards (args ++ fragment)) } := by
  obtain ⟨id, callId, hi, rfl, hc, rfl, hs⟩ := h.current_call hd
  have hstep : s.onArgs fragment =
      ({ s with current := some (.functionCall id callId (name.getD []) (args ++ fragment) ordinal)
        }, [.functionCallArgumentsDelta id s.outputItems.length fragment]) := by
    simp [ResponsesStream.onArgs, hc, hi]
  rw [hstep]
  refine ⟨⟨.streaming, ⟨s.outputItems,
    some (.functionCall id callId (name.getD []) ⟨args ++ fragment, false⟩)⟩⟩, ?_, ?_⟩
  · rw [readEvents_singleton]
    exact readEvent_part rfl (by simp [ItemBody.step])
  · apply Follows.busy
    · exact hi
    · rfl
    · exact ⟨rfl, name, rfl, rfl⟩
    · exact hs

theorem Follows.onArgs (fragment : Text) (h : Follows s c d) :
    Reaches c (s.onArgs fragment) (d.fragment fragment) := by
  by_cases hd : ∃ name ordinal forwards args, d.current = some (.call name ordinal forwards args)
  · obtain ⟨name, ordinal, forwards, args, hd⟩ := hd
    obtain ⟨id, callId, hi, rfl, hc, rfl, hs⟩ := h.current_call hd
    simp only [Delivery.fragment, hd]
    exact h.addArgs fragment hd
  · push Not at hd
    have hfragment : d.fragment fragment = d := by
      unfold Delivery.fragment
      split
      · exact absurd ‹_› (hd _ _ _ _)
      · rfl
    have hs : s.onArgs fragment = (s, []) := by
      unfold ResponsesStream.onArgs
      split
      · exact absurd ‹_› (h.current_ne_call hd _ _ _ _ _)
      · rfl
    rw [hfragment, hs]
    exact h.reaches

theorem Follows.setArgs_eq
    (h : Follows s c d) (hd : d.current = some (.call name ordinal forwards args)) :
    s.setArgs args = s := by
  obtain ⟨id, callId, hi, rfl, hc, rfl, hs⟩ := h.current_call hd
  cases s
  simp_all [ResponsesStream.setArgs]

theorem Follows.finishCall
    (h : Follows s c d) (hd : d.current = some (.call name ordinal forwards args))
    (hp : args <+: final) :
    Reaches c (s.finishCall args final) ⟨d.closed ++ [.call name ordinal forwards final],
      none⟩ := by
  obtain ⟨rest, rfl⟩ := hp
  have hclose : ∀ {s₁ : ResponsesStream} {c₁ : ResponsesClient},
      Follows s₁ c₁ { d with current := some (.call name ordinal forwards (args ++ rest)) } →
      Reaches c₁ ((s₁.setArgs (args ++ rest)).closeCurrent "stop".toList)
        ⟨d.closed ++ [.call name ordinal forwards (args ++ rest)], none⟩ := by
    intro s₁ c₁ h₁
    rw [h₁.setArgs_eq rfl]
    exact (h₁.closeCurrent "stop".toList).1
  by_cases hrest : rest = []
  · subst hrest
    have hs : s.finishCall args (args ++ []) = ((s.setArgs (args ++ [])).closeCurrent "stop".toList) := by
      simp [ResponsesStream.finishCall]
    have hd' :
      ({ d with current := some (.call name ordinal forwards (args ++ [])) } : Delivery) = d := by
      simp [← hd]
    rw [hs]
    exact hclose (by rw [hd']; exact h)
  · have hs : s.finishCall args (args ++ rest) =
        (((s.onArgs rest).1.setArgs (args ++ rest)).closeCurrent "stop".toList |>.1,
          (s.onArgs rest).2 ++ (((s.onArgs rest).1.setArgs (args ++ rest)).closeCurrent "stop".toList).2) := by
      simp [ResponsesStream.finishCall, hrest]
    rw [hs]
    exact (h.addArgs rest hd).append fun c' hc' => hclose hc'

theorem Follows.finishCall_eq_none (h : Follows s c d)
    (hd : d.current = some (.call name ordinal forwards args)) (hp : ¬args <+: final) :
    c.readEvents (s.finishCall args final).2 = none := by
  obtain ⟨id, callId, hi, rfl, hc, rfl, hs⟩ := h.current_call hd
  have hne : final ≠ args := by
    rintro rfl
    exact hp (prefix_refl _)
  have hstep : (s.finishCall args final).2 =
      [.functionCallArgumentsDone id s.outputItems.length (name.getD []) final,
        .outputItemDone s.outputItems.length
          (.functionCall id callId (name.getD []) final .completed)] := by
    simp [ResponsesStream.finishCall, hp, ResponsesStream.setArgs, hc, ResponsesStream.closeCurrent,
      closing, hi]
  have hbody : ItemBody.step (.functionCall id callId (name.getD []) ⟨args, false⟩)
      (.arguments id (some (name.getD [])) (.done final)) = none := by
    simp [ItemBody.step, RunReader.read_done_eq_none hne]
  have hread : readEvent
      ⟨.streaming, ⟨s.outputItems, some (.functionCall id callId (name.getD []) ⟨args, false⟩)⟩⟩
      (.functionCallArgumentsDone id s.outputItems.length (name.getD []) final) = none :=
    readEvent_part_eq_none rfl hbody
  rw [hstep]
  simp [readEvents, hread]

theorem Follows.wholeCall (call : ToolCallItem) (h : Follows s c d) :
    Reaches c (s.wholeCall uuid call)
      ⟨d.close.closed ++ [.call call.name call.toolIndex true call.parameters], none⟩ := by
  have hopen := h.openFunctionCall uuid call.name call.toolIndex true
  have hadd := hopen.append fun c' hc' => hc'.addArgs call.parameters rfl
  exact hadd.append fun c' hc' => (hc'.closeCurrent "stop".toList).1

/-- A call of a `ToolCallsDelta` is read if and only if it extends the fragments of the call it
closes. -/
theorem Follows.onCall (call : ToolCallItem) (h : Follows s c d) :
    if ∀ o ∈ d.streamed, o.ordinal = call.toolIndex → o.sent <+: call.parameters then
      Reaches c (s.onCall uuid call) (d.call call)
    else c.readEvents (s.onCall uuid call).2 = none := by
  by_cases hd : ∃ name ordinal forwards args, d.current = some (.call name ordinal forwards args)
  · obtain ⟨name, ordinal, forwards, args, hd⟩ := hd
    obtain ⟨id, callId, hi, rfl, hc, hcl, hs⟩ := h.current_call hd
    have hstreamed : d.streamed = some ⟨ordinal, true, args⟩ := by simp [Delivery.streamed, hd]
    by_cases hord : ordinal = call.toolIndex
    · -- the call that is open gets its end
      have hcall : s.onCall uuid call = s.finishCall args call.parameters := by
        simp [ResponsesStream.onCall, hc, hord]
      rw [hcall]
      split
      · rename_i hext
        have hp : args <+: call.parameters := hext _ hstreamed hord
        have hd' : d.call call = ⟨d.closed ++ [.call name ordinal true call.parameters], none⟩ := by
          simp [Delivery.call, hd, hord, Delivery.topped, hp]
        rw [hd']
        exact h.finishCall hd hp
      · rename_i hext
        apply h.finishCall_eq_none hd
        intro hp
        apply hext
        rintro o ho -
        obtain rfl := Option.some.inj (hstreamed.symm.trans ho)
        exact hp
    · -- another call: the open one is closed, and this one sent whole
      have hcall : s.onCall uuid call = s.wholeCall uuid call := by
        simp [ResponsesStream.onCall, hc, hord]
      rw [if_pos, hcall]
      · have hd' : d.call call =
            ⟨d.close.closed ++ [.call call.name call.toolIndex true call.parameters], none⟩ := by
          simp [Delivery.call, hd, hord]
        rw [hd']
        exact h.wholeCall uuid call
      · rintro o ho ho'
        obtain rfl := Option.some.inj (hstreamed.symm.trans ho)
        exact absurd ho' hord
  · push Not at hd
    have hcall : s.onCall uuid call = s.wholeCall uuid call := by
      unfold ResponsesStream.onCall
      split
      · exact absurd ‹_› (h.current_ne_call hd _ _ _ _ _)
      · rfl
    have hd' : d.call call =
        ⟨d.close.closed ++ [.call call.name call.toolIndex true call.parameters], none⟩ := by
      unfold Delivery.call
      split
      · exact absurd ‹_› (hd _ _ _ _)
      · rfl
    have hstreamed : d.streamed = none := by
      unfold Delivery.streamed
      split
      · exact absurd ‹_› (hd _ _ _ _)
      · rfl
    rw [if_pos (by simp [hstreamed]), hcall, hd']
    exact h.wholeCall uuid call

theorem Follows.onCalls (calls : List ToolCallItem) (h : Follows s c d) :
    if StreamedCall.Extends d.streamed (.toolCallsDelta calls) then
      Reaches c (s.onCalls uuid calls) (calls.foldl Delivery.call d)
    else c.readEvents (s.onCalls uuid calls).2 = none := by
  induction calls generalizing s c d with
  | nil =>
    rw [if_pos (by simp [StreamedCall.Extends])]
    exact h.reaches
  | cons call calls ih =>
    have hfirst := h.onCall uuid call
    by_cases hext : ∀ o ∈ d.streamed, o.ordinal = call.toolIndex → o.sent <+: call.parameters
    · rw [if_pos hext] at hfirst
      rw [if_pos (by simpa [StreamedCall.Extends] using hext)]
      apply hfirst.append
      intro c' hc'
      have hrest := ih hc'
      rwa [if_pos] at hrest
      simp [StreamedCall.Extends, Delivery.streamed_of_current_eq_none _ (d.current_call call)]
    · rw [if_neg hext] at hfirst
      rw [if_neg (by simpa [StreamedCall.Extends] using hext)]
      exact readEvents_append_eq_none hfirst _

variable (info : ResponseInfo)

theorem Follows.onEvent (ev : GenEvent) (h : Follows s c d) :
    if StreamedCall.Extends d.streamed ev then
      Reaches c (s.onItem uuid info (.event ev)) (d.event true ev)
    else c.readEvents (s.onItem uuid info (.event ev)).2 = none := by
  cases ev with
  | reasoningDelta text =>
    have hext : StreamedCall.Extends d.streamed (.reasoningDelta text) := trivial
    rw [if_pos hext]
    exact h.onReasoning uuid text
  | contentDelta text =>
    have hext : StreamedCall.Extends d.streamed (.contentDelta text) := trivial
    rw [if_pos hext]
    exact h.onContent uuid text
  | toolCallStart index name stable =>
    have hext : StreamedCall.Extends d.streamed (.toolCallStart index name stable) := trivial
    rw [if_pos hext]
    exact h.openFunctionCall uuid name index stable
  | toolCallArgsDelta index fragment =>
    have hext : StreamedCall.Extends d.streamed (.toolCallArgsDelta index fragment) := trivial
    rw [if_pos hext]
    exact h.onArgs fragment
  | toolCallsDelta calls => exact h.onCalls uuid calls

theorem Follows.keepalive (h : Follows s c d) : Reaches c (s.onItem uuid info .keepalive) d := by
  refine ⟨c, ?_, h⟩
  show c.readEvents [_] = some c
  rw [readEvents_singleton]
  cases h <;> simp [readEvent]

theorem readEvent_terminal (cacheReport : Bool) (output : List ResponseItem) (e : GenDone) :
    readEvent ⟨.streaming, ⟨output, none⟩⟩ (terminal info cacheReport output e) =
      some ⟨.ended, ⟨output, none⟩⟩ := by
  by_cases hl : e.finishReason = "length".toList
  · simp only [terminal, hl, ↓reduceIte]
    exact advance_streaming rfl
  · simp only [terminal, hl, ↓reduceIte]
    exact advance_streaming rfl

theorem Follows.onEnd (cacheReport : Bool) (e : GenEnd) (h : Follows s c d) :
    ∃ bs, c.readEvents (s.onEnd info cacheReport e) = some ⟨.ended, ⟨bs, none⟩⟩ ∧
      List.Forall₂ ResponseItem.Shows bs d.close.closed := by
  have hclosed : ∀ reason, c.readEvents (s.closeCurrent reason).2 =
      some ⟨.streaming, ⟨(s.closeCurrent reason).1.outputItems, none⟩⟩ ∧
      List.Forall₂ ResponseItem.Shows (s.closeCurrent reason).1.outputItems d.close.closed := by
    intro reason
    obtain ⟨c', hread, hf⟩ := (h.closeCurrent reason).1
    cases hf with
    | idle hi hc hs => exact ⟨hread, hs⟩
  cases e with
  | done e =>
    refine ⟨_, ?_, (hclosed e.finishReason).2⟩
    show c.readEvents ((s.closeCurrent e.finishReason).2 ++
      [terminal info cacheReport (s.closeCurrent e.finishReason).1.outputItems e]) = _
    rw [readEvents_append (hclosed e.finishReason).1, readEvents_singleton]
    exact readEvent_terminal info cacheReport _ e
  | generationError message code =>
    refine ⟨_, ?_, (hclosed "stop".toList).2⟩
    show c.readEvents ((s.closeCurrent "stop".toList).2 ++ [_]) = _
    rw [readEvents_append (hclosed "stop".toList).1, readEvents_singleton]
    exact advance_streaming rfl
  | exception message =>
    refine ⟨_, ?_, (hclosed "stop".toList).2⟩
    show c.readEvents ((s.closeCurrent "stop".toList).2 ++ [_]) = _
    rw [readEvents_append (hclosed "stop".toList).1, readEvents_singleton]
    exact advance_streaming rfl

theorem events_cons (cacheReport : Bool) (item : StreamItem) (items : List StreamItem)
    (e : GenEnd) :
    s.events uuid info cacheReport (item :: items) e =
      (s.onItem uuid info item).2 ++ (s.onItem uuid info item).1.events uuid info cacheReport items
      e := rfl

/-- The stream is read to its end if and only if all calls that close extend their fragments. -/
theorem Follows.events (cacheReport : Bool) (items : List StreamItem) (e : GenEnd)
    (h : Follows s c d) :
    (StreamedCall.TopsUp true d.streamed items →
      ∃ bs, c.readEvents (s.events uuid info cacheReport items e) = some ⟨.ended, ⟨bs, none⟩⟩ ∧
        List.Forall₂ ResponseItem.Shows bs (d.blocks true items)) ∧
    (¬StreamedCall.TopsUp true d.streamed items →
      c.readEvents (s.events uuid info cacheReport items e) = none) := by
  induction items generalizing s c d with
  | nil =>
    refine ⟨fun _ => h.onEnd info cacheReport e, ?_⟩
    intro hn
    exact absurd trivial hn
  | cons item items ih =>
    cases item with
    | keepalive =>
      obtain ⟨c', hread, hf⟩ := h.keepalive uuid info
      rw [events_cons, readEvents_append hread]
      exact ih hf
    | event ev =>
      have hev := h.onEvent uuid info ev
      have hnext : (d.event true ev).streamed = StreamedCall.next true d.streamed ev :=
        d.streamed_event true ev
      rw [events_cons]
      by_cases hext : StreamedCall.Extends d.streamed ev
      · rw [if_pos hext] at hev
        obtain ⟨c', hread, hf⟩ := hev
        rw [readEvents_append hread]
        obtain ⟨hyes, hno⟩ := ih hf
        rw [hnext] at hyes hno
        exact ⟨fun ht => hyes ht.2, fun ht => hno fun ht' => ht ⟨hext, ht'⟩⟩
      · rw [if_neg hext] at hev
        rw [readEvents_append_eq_none hev]
        exact ⟨fun ht => absurd ht.1 hext, fun _ => rfl⟩

end ResponsesStream

theorem responsesStreamGenerator_read (uuid : ℕ → Text) (info : ResponseInfo) (cacheReport : Bool)
    (items : List StreamItem) (e : GenEnd) :
    ResponsesClient.readAll 0 {} (responsesStreamGenerator uuid info cacheReport items e) =
      ResponsesClient.readEvents ⟨.streaming, {}⟩
        (ResponsesStream.events uuid info cacheReport {} items e) :=
  ResponsesClient.readAll_number 0 {} _

/-- A client reads the whole stream if and only if all calls that close extend their fragments, and
then it is shown the blocks of the answer. -/
theorem responsesStreamGenerator_shows (uuid : ℕ → Text) (info : ResponseInfo) (cacheReport : Bool)
    (items : List StreamItem) (e : GenEnd) :
    (StreamedCall.TopsUp true none items →
      ∃ bs, ResponsesClient.readAll 0 {} (responsesStreamGenerator uuid info cacheReport items e) =
          some ⟨.ended, ⟨bs, none⟩⟩ ∧
        List.Forall₂ ResponseItem.Shows bs (Delivery.blocks true {} items)) ∧
    (¬StreamedCall.TopsUp true none items →
      ResponsesClient.readAll 0 {} (responsesStreamGenerator uuid info cacheReport items e) =
        none) := by
  have hfresh : ResponsesStream.Follows {} ⟨.streaming, {}⟩ {} := .idle rfl rfl .nil
  rw [responsesStreamGenerator_read]
  exact hfresh.events uuid info cacheReport items e

end FreeToken
