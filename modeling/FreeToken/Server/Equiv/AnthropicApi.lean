import FreeToken.Lib.BlockStream
import FreeToken.Server.AnthropicApi
import FreeToken.Server.Equiv.Delivery
import Mathlib.Data.List.Forall2

/-!
# Reading the Anthropic stream

What a strict client of the Messages protocol reads: a `message_start`, blocks one after the other,
and one terminal event.  The adapter keeps such a client going, whatever generation events arrive.
-/

namespace FreeToken

/-! ### The client -/

/-- The inside of a block: its start, the text of its deltas, and whether its signature has arrived.
-/
structure AnthropicBlock where
  start : AnthropicContentBlock
  content : Text := []
  signed : Bool := false
deriving DecidableEq, Repr

namespace AnthropicBlock

/-- Add a delta of the kind of the block. -/
def add (b : AnthropicBlock) (d : AnthropicDelta) : Option AnthropicBlock :=
  match b.start, d with
  | .text, .text t => some { b with content := b.content ++ t }
  | .thinking, .thinking t => if b.signed then none else some { b with content := b.content ++ t }
  | .thinking, .signature _ => if b.signed then none else some { b with signed := true }
  | .toolUse _ _, .inputJson t => some { b with content := b.content ++ t }
  | _, _ => none

/-- The blocks of the Messages protocol: only a thinking block is signed. -/
def body : BlockBody AnthropicBlock AnthropicContentBlock AnthropicDelta Unit AnthropicBlock where
  init start := some { start }
  step := add
  close b _ := if b.start = .thinking ∧ ¬b.signed then none else some b

end AnthropicBlock

inductive MessagePhase where
  | fresh
  | streaming
  | stopping
  | ended
deriving DecidableEq, Repr

structure AnthropicClient where
  phase : MessagePhase := .fresh
  blocks : BlockReader AnthropicBlock AnthropicBlock := {}
deriving DecidableEq, Repr

variable {bs : List AnthropicBlock} {δ : AnthropicDelta} {f : AnthropicStreamEvent} {i : ℕ}

namespace AnthropicClient

/-- Read what a frame says about the blocks. -/
def readBlock (c : AnthropicClient) (m : BlockMark AnthropicContentBlock AnthropicDelta Unit) :
    Option AnthropicClient :=
  if c.phase = .streaming then
    (BlockReader.read AnthropicBlock.body c.blocks m).map fun blocks => { c with blocks }
  else none

/-- Go from phase `p` to phase `q`, when no block is open. -/
def advance (c : AnthropicClient) (p q : MessagePhase) : Option AnthropicClient :=
  if c.phase = p ∧ c.blocks.current.isNone then some { c with phase := q } else none

/-- Read a frame, unless it is out of place. -/
def read (c : AnthropicClient) : AnthropicStreamEvent → Option AnthropicClient
  | .messageStart _ _ _ => c.advance .fresh .streaming
  | .ping => if c.phase = .streaming then some c else none
  | .contentBlockStart index b => c.readBlock (.start index b)
  | .contentBlockDelta index d => c.readBlock (.part index d)
  | .contentBlockStop index => c.readBlock (.stop index ())
  | .messageDelta _ _ _ => c.advance .streaming .stopping
  | .messageStop => c.advance .stopping .ended
  | .error _ _ => c.advance .streaming .ended

def readAll (c : AnthropicClient) (fs : List AnthropicStreamEvent) : Option AnthropicClient :=
  fs.foldlM read c

/-- A stream of frames is well formed if the client reads it to its end, after which no frame is
read. -/
def WellFormed (fs : List AnthropicStreamEvent) : Prop :=
  ∃ bs, readAll {} fs = some ⟨.ended, ⟨bs, none⟩⟩

@[simp]
theorem readAll_nil (c : AnthropicClient) : c.readAll [] = some c := rfl

theorem readAll_cons {c c' : AnthropicClient} (h : c.read f = some c')
    (fs : List AnthropicStreamEvent) : c.readAll (f :: fs) = c'.readAll fs := by
  simp [readAll, h]

theorem readAll_append {c c' : AnthropicClient} {fs : List AnthropicStreamEvent}
    (h : c.readAll fs = some c') (gs : List AnthropicStreamEvent) :
    c.readAll (fs ++ gs) = c'.readAll gs := by
  simp only [readAll] at h ⊢
  rw [List.foldlM_append, h]
  rfl

theorem readAll_singleton (c : AnthropicClient) (f : AnthropicStreamEvent) :
    c.readAll [f] = c.read f := by
  cases h : c.read f <;> simp [readAll, h]

theorem readBlock_streaming {bs bs' : BlockReader AnthropicBlock AnthropicBlock}
    {m : BlockMark AnthropicContentBlock AnthropicDelta Unit}
    (h : BlockReader.read AnthropicBlock.body bs m = some bs') :
    readBlock ⟨.streaming, bs⟩ m = some ⟨.streaming, bs'⟩ := by
  simp [readBlock, h]

theorem read_start {b : AnthropicContentBlock} (hi : i = bs.length) :
    read ⟨.streaming, ⟨bs, none⟩⟩ (.contentBlockStart i b) =
      some ⟨.streaming, ⟨bs, some { start := b }⟩⟩ :=
  readBlock_streaming (BlockReader.read_start hi rfl)

theorem read_delta {b b' : AnthropicBlock}
    (hi : i = bs.length) (h : b.add δ = some b') :
    read ⟨.streaming, ⟨bs, some b⟩⟩ (.contentBlockDelta i δ) = some ⟨.streaming, ⟨bs, some b'⟩⟩ :=
  readBlock_streaming (BlockReader.read_part hi h)

theorem read_stop {b : AnthropicBlock} (hi : i = bs.length)
    (h : ¬(b.start = .thinking ∧ ¬b.signed)) :
    read ⟨.streaming, ⟨bs, some b⟩⟩ (.contentBlockStop i) = some ⟨.streaming, ⟨bs ++ [b], none⟩⟩ :=
  readBlock_streaming (BlockReader.read_stop hi (if_neg h))

end AnthropicClient

/-! ### The adapter and its client -/

def AnthropicBlock.Shows (b : AnthropicBlock) : Block → Prop
  | .reasoning t => b.start = .thinking ∧ b.content = t
  | .content t => b.start = .text ∧ b.content = t
  | .call name _ _ args => (∃ id, b.start = .toolUse id name) ∧ b.content = args

variable {k : Block} {name : Option Text} {forwards : Bool} {ordinal : ℤ} {args : Text}

namespace AnthropicStream

/-- What the adapter keeps about the open block. -/
def OpenAs (s : AnthropicStream) : Block → Prop
  | .reasoning _ => s.blockOpen = some .thinking
  | .content _ => s.blockOpen = some .text
  | .call _ ordinal forwards args =>
    s.blockOpen = some .tool ∧ s.toolOrdinal = some ordinal ∧ s.toolStable = forwards ∧
      s.toolArgsSent = args

/-- A client in the middle of a stream, that has been shown the blocks of an answer. -/
inductive Follows (s : AnthropicStream) : AnthropicClient → Delivery → Prop
  | idle {bs : List AnthropicBlock} {ks : List Block} (hi : s.blockIndex = bs.length)
      (hs : List.Forall₂ AnthropicBlock.Shows bs ks) (ho : s.blockOpen = none) :
      Follows s ⟨.streaming, ⟨bs, none⟩⟩ ⟨ks, none⟩
  | busy {bs : List AnthropicBlock} {ks : List Block} (hi : s.blockIndex = bs.length)
      (hs : List.Forall₂ AnthropicBlock.Shows bs ks) {b : AnthropicBlock} {k : Block}
      (hu : b.signed = false)
      (hb : b.Shows k) (ho : s.OpenAs k) : Follows s ⟨.streaming, ⟨bs, some b⟩⟩ ⟨ks, some k⟩

/-- A client reads what a step sends, and is shown `d` by then. -/
def Reaches (c : AnthropicClient) (r : AnthropicStream × List AnthropicStreamEvent) (d : Delivery) :
    Prop :=
  ∃ c', c.readAll r.2 = some c' ∧ Follows r.1 c' d

variable {s s' : AnthropicStream} {c : AnthropicClient} {d d' : Delivery}
  {fs gs : List AnthropicStreamEvent}

theorem Follows.reaches (h : Follows s c d) : Reaches c (s, []) d := ⟨c, rfl, h⟩

theorem Reaches.append (h : Reaches c (s, fs) d)
    (hg : ∀ c', Follows s c' d → Reaches c' (s', gs) d') : Reaches c (s', fs ++ gs) d' := by
  obtain ⟨c₁, h₁, f₁⟩ := h
  obtain ⟨c₂, h₂, f₂⟩ := hg c₁ f₁
  refine ⟨c₂, ?_, f₂⟩
  show c.readAll (fs ++ gs) = some c₂
  rw [AnthropicClient.readAll_append h₁]
  exact h₂

/-- One frame about the blocks. -/
theorem reaches_block {bs : BlockReader AnthropicBlock AnthropicBlock}
    {c' : AnthropicClient} (h : AnthropicClient.read ⟨.streaming, bs⟩ f = some c')
    (hf : Follows s' c' d') :
    Reaches ⟨.streaming, bs⟩ (s', [f]) d' :=
  ⟨c', by rw [AnthropicClient.readAll_singleton]; exact h, hf⟩

theorem Follows.start {start : AnthropicContentBlock} {k : Block} (h : Follows s c d)
    (ho : s.blockOpen = none) (hi' : s'.blockIndex = s.blockIndex)
    (hk : AnthropicBlock.Shows { start } k) (ho' : s'.OpenAs k) :
    Reaches c (s', [.contentBlockStart s.blockIndex start]) { d with current := some k } := by
  cases h with
  | idle hi hs _ =>
    apply reaches_block (AnthropicClient.read_start hi)
    exact .busy (hi'.trans hi) hs rfl hk ho'
  | @busy bs ks hi hs b k' hu hb hk' =>
    exact absurd ho (by cases k' <;> simp_all [OpenAs])

theorem Follows.delta {k' : Block} (h : Follows s c d) (hd : d.current = some k)
    (hadd : ∀ b : AnthropicBlock, b.signed = false → b.Shows k →
      ∃ b', b.add δ = some b' ∧ b'.signed = false ∧ b'.Shows k')
    (hi' : s'.blockIndex = s.blockIndex) (ho' : s'.OpenAs k') :
    Reaches c (s', [.contentBlockDelta s.blockIndex δ]) { d with current := some k' } := by
  cases h with
  | idle hi hs ho => simp at hd
  | busy hi hs hu hb ho =>
    obtain rfl := Option.some.inj hd
    obtain ⟨b', hb', hu', hs'⟩ := hadd _ hu hb
    apply reaches_block (AnthropicClient.read_delta hi hb')
    exact .busy (hi'.trans hi) hs hu' hs' ho'

theorem Follows.stop (h : Follows s c d) (hd : d.current = some k) :
    Reaches c s.stopBlock d.close := by
  cases h with
  | idle hi hs ho => simp at hd
  | @busy bs ks hi hs b k' hu hb ho =>
    have hidle : ∀ b', AnthropicBlock.Shows b' k' →
        Follows s.stopBlock.1 ⟨.streaming, ⟨bs ++ [b'], none⟩⟩ ⟨ks ++ [k'], none⟩ := by
      intro b' hb'
      refine .idle ?_ (List.rel_append hs (.cons hb' .nil)) rfl
      simp [stopBlock, hi]
    obtain ⟨start, content, signed⟩ := b
    cases k' with
    | reasoning t =>
      obtain ⟨rfl, rfl⟩ := hb
      have hopen : s.blockOpen = some .thinking := ho
      refine ⟨_, ?_, hidle ⟨.thinking, content, true⟩ ⟨rfl, rfl⟩⟩
      -- the signature comes before the stop
      have hsign : AnthropicClient.read ⟨.streaming, ⟨bs, some ⟨.thinking, content, signed⟩⟩⟩
          (.contentBlockDelta s.blockIndex (.signature [])) =
          some ⟨.streaming, ⟨bs, some ⟨.thinking, content, true⟩⟩⟩ :=
        AnthropicClient.read_delta hi (by simp_all [AnthropicBlock.add])
      simp only [stopBlock, hopen, ↓reduceIte, List.cons_append, List.nil_append]
      rw [AnthropicClient.readAll_cons hsign, AnthropicClient.readAll_singleton]
      exact AnthropicClient.read_stop hi (by simp)
    | content t =>
      obtain ⟨rfl, rfl⟩ := hb
      have hopen : s.blockOpen = some .text := ho
      refine ⟨_, ?_, hidle _ ⟨rfl, rfl⟩⟩
      simp only [stopBlock, hopen, Option.some.injEq, reduceCtorEq, ↓reduceIte, List.nil_append]
      rw [AnthropicClient.readAll_singleton]
      exact AnthropicClient.read_stop hi (by simp)
    | call name ordinal forwards args =>
      obtain ⟨⟨id, rfl⟩, rfl⟩ := hb
      refine ⟨_, ?_, hidle _ ⟨⟨id, rfl⟩, rfl⟩⟩
      simp only [stopBlock, ho.1, Option.some.injEq, reduceCtorEq, ↓reduceIte, List.nil_append]
      rw [AnthropicClient.readAll_singleton]
      exact AnthropicClient.read_stop hi (by simp)

theorem Follows.stopOpen (h : Follows s c d) :
    Reaches c s.stopOpen d.close ∧ s.stopOpen.1.blockOpen = none := by
  cases h' : d.current with
  | none =>
    have hs : s.blockOpen = none := by cases h <;> simp_all
    have hd : d.close = d := by cases d; simp_all [Delivery.close]
    have hstop : s.stopOpen = (s, []) := by simp [AnthropicStream.stopOpen, hs]
    rw [hstop, hd]
    exact ⟨h.reaches, hs⟩
  | some k =>
    have hs : s.blockOpen.isSome := by
      cases h with
      | idle hi hs ho => simp at h'
      | @busy bs ks hi hs b k' hu hb ho => cases k' <;> simp_all [OpenAs]
    have hstop : s.stopOpen = s.stopBlock := by simp [AnthropicStream.stopOpen, hs]
    rw [hstop]
    exact ⟨h.stop h', rfl⟩

theorem Follows.ensureOpen {kind : BlockOpen} {isIt : Block → Bool} {new : Block}
    {start : AnthropicContentBlock}
    {opener : AnthropicStream → AnthropicStream × List AnthropicStreamEvent}
    (hkind : ∀ k, s.OpenAs k → (isIt k ↔ s.blockOpen = some kind))
    (hstart : ∀ s : AnthropicStream, (opener s).1.blockIndex = s.blockIndex ∧
      (opener s).1.OpenAs new ∧
      (opener s).2 = [.contentBlockStart s.blockIndex start])
    (hnew : AnthropicBlock.Shows { start } new) (h : Follows s c d) :
    Reaches c (s.ensureOpen kind opener) (d.ensure isIt new) := by
  have hany : d.current.any isIt = true ↔ s.blockOpen = some kind := by
    cases h with
    | idle hi hs ho => simp [ho]
    | busy hi hs hu hb ho => simpa using hkind _ ho
  by_cases hopen : s.blockOpen = some kind
  · simp only [AnthropicStream.ensureOpen, hopen, ↓reduceIte, Delivery.ensure, hany.mpr hopen]
    exact h.reaches
  · simp only [AnthropicStream.ensureOpen, hopen, ↓reduceIte, Delivery.ensure, mt hany.mp hopen]
    apply h.stopOpen.1.append
    intro c' hc'
    obtain ⟨hi, ho, hf⟩ := hstart s.stopOpen.1
    rw [hf]
    exact hc'.start h.stopOpen.2 hi hnew ho

theorem Follows.add (text : Text) (h : Follows s c d)
    (hd : d.current = some k)
    (hadd : ∀ b : AnthropicBlock, b.signed = false → b.Shows k →
      ∃ b', b.add δ = some b' ∧ b'.signed = false ∧ b'.Shows (k.add text))
    (ho : s.OpenAs (k.add text)) :
    Reaches c (s, [.contentBlockDelta s.blockIndex δ]) (d.add text) := by
  have hd' : d.add text = { d with current := some (k.add text) } := by simp [Delivery.add, hd]
  rw [hd']
  exact h.delta hd hadd rfl ho

theorem Follows.openAs (h : Follows s c d) (hd : d.current = some k) : s.OpenAs k := by
  cases h with
  | idle hi hs ho => simp at hd
  | busy hi hs hu hb ho =>
    obtain rfl := Option.some.inj hd
    exact ho

theorem Follows.onReasoning (text : Text) (h : Follows s c d) :
    Reaches c (s.onReasoning text) (d.reasoning text) := by
  by_cases ht : text = []
  · simp only [AnthropicStream.onReasoning, ht, ↓reduceIte, Delivery.reasoning]
    exact h.reaches
  · simp only [AnthropicStream.onReasoning, ht, ↓reduceIte, Delivery.reasoning]
    have hopen : Reaches c (s.ensureOpen .thinking openThinking)
        (d.ensure Block.isReasoning (.reasoning [])) := by
      apply h.ensureOpen
      · intro k hk
        cases k <;> simp_all [OpenAs, Block.isReasoning]
      · exact fun _ => ⟨rfl, rfl, rfl⟩
      · exact ⟨rfl, rfl⟩
    apply hopen.append
    intro c' hc'
    obtain ⟨t, hcur⟩ := d.ensure_isReasoning
    apply hc'.add text hcur
    · rintro ⟨start, content, signed⟩ rfl ⟨rfl, rfl⟩
      exact ⟨_, rfl, rfl, rfl, rfl⟩
    · have ho := hc'.openAs hcur
      exact ho

theorem Follows.onContent (text : Text) (h : Follows s c d) :
    Reaches c (s.onContent text) (d.content text) := by
  by_cases ht : text = []
  · simp only [AnthropicStream.onContent, ht, ↓reduceIte, Delivery.content]
    exact h.reaches
  · simp only [AnthropicStream.onContent, ht, ↓reduceIte, Delivery.content]
    have hopen :
      Reaches c (s.ensureOpen .text openText) (d.ensure Block.isContent (.content [])) := by
      apply h.ensureOpen
      · intro k hk
        cases k <;> simp_all [OpenAs, Block.isContent]
      · exact fun _ => ⟨rfl, rfl, rfl⟩
      · exact ⟨rfl, rfl⟩
    apply hopen.append
    intro c' hc'
    obtain ⟨t, hcur⟩ := d.ensure_isContent
    apply hc'.add text hcur
    · rintro ⟨start, content, signed⟩ rfl ⟨rfl, rfl⟩
      exact ⟨_, rfl, rfl, rfl, rfl⟩
    · have ho := hc'.openAs hcur
      exact ho

variable (uuid : ℕ → Text)

theorem Follows.openTool (name : Option Text) (ordinal : ℤ) (stable : Bool) (h : Follows s c d) :
    Reaches c (s.openTool uuid name ordinal stable) (d.start false name ordinal stable) := by
  apply h.stopOpen.1.append
  intro c' hc'
  exact hc'.start h.stopOpen.2 rfl ⟨⟨_, rfl⟩, rfl⟩ ⟨rfl, rfl, rfl, rfl⟩

theorem Follows.toolArgsDelta
    (fragment : Text) (h : Follows s c d)
    (hd : d.current = some (.call name ordinal forwards args)) :
    Reaches c (s.toolArgsDelta fragment)
      { d with current := some (.call name ordinal forwards (args ++ fragment)) } := by
  obtain ⟨hopen, hord, hstable, hargs⟩ := h.openAs hd
  apply h.delta hd
  · rintro ⟨start, content, signed⟩ rfl ⟨⟨id, rfl⟩, rfl⟩
    exact ⟨_, rfl, rfl, ⟨id, rfl⟩, rfl⟩
  · rfl
  · exact ⟨hopen, hord, hstable, congrArg (· ++ fragment) hargs⟩

theorem Follows.onArgs (fragment : Text) (h : Follows s c d) :
    Reaches c (s.onArgs fragment) (d.fragment fragment) := by
  by_cases hs : s.blockOpen = some .tool ∧ s.toolStable
  · simp only [AnthropicStream.onArgs, hs, and_self, ↓reduceIte]
    cases hd : d.current with
    | none => cases h <;> simp_all
    | some k =>
      have hk := h.openAs hd
      cases k with
      | reasoning t => simp_all [OpenAs]
      | content t => simp_all [OpenAs]
      | call name ordinal forwards args =>
        obtain rfl : forwards = true := hk.2.2.1.symm.trans hs.2
        simp only [Delivery.fragment, hd]
        exact h.toolArgsDelta fragment hd
  · simp only [AnthropicStream.onArgs, hs, ↓reduceIte]
    have hd : d.fragment fragment = d := by
      unfold Delivery.fragment
      split
      · rename_i name ordinal args hd
        have hk := h.openAs hd
        exact absurd ⟨hk.1, hk.2.2.1⟩ hs
      · rfl
    rw [hd]
    exact h.reaches

/-- The final arguments are topped up, as far as the fragments are a prefix of them. -/
theorem Follows.topUp (final : Text)
    (h : Follows s c d) (hd : d.current = some (.call name ordinal forwards args)) :
    Reaches c (s.topUp final)
      { d with current := some (.call name ordinal forwards (Delivery.topped args final)) } := by
  have hargs : s.toolArgsSent = args := (h.openAs hd).2.2.2
  by_cases hp : args <+: final
  · obtain ⟨rest, rfl⟩ := hp
    have htop : Delivery.topped args (args ++ rest) = args ++ rest :=
      if_pos (List.prefix_append _ _)
    rw [htop]
    by_cases hrest : rest = []
    · subst hrest
      have hs : s.topUp (args ++ []) = (s, []) := by simp [AnthropicStream.topUp, hargs]
      have hd' :
        ({ d with current := some (.call name ordinal forwards (args ++ [])) } : Delivery) = d := by
        simp [← hd]
      rw [hs, hd']
      exact h.reaches
    · have hs : s.topUp (args ++ rest) = s.toolArgsDelta rest := by
        simp [AnthropicStream.topUp, hargs, hrest]
      rw [hs]
      exact h.toolArgsDelta rest hd
  · have htop : Delivery.topped args final = args := if_neg hp
    have hs : s.topUp final = (s, []) := by simp [AnthropicStream.topUp, hargs, hp]
    have hd' : ({ d with current := some (.call name ordinal forwards args) } : Delivery) = d := by
      simp [← hd]
    rw [htop, hs, hd']
    exact h.reaches

theorem Follows.wholeCall (call : ToolCallItem) (h : Follows s c d)
    (hs : ¬(s.blockOpen = some .tool ∧ s.toolOrdinal = some call.toolIndex)) :
    Reaches c (s.onCall uuid call)
      ⟨d.close.closed ++ [.call call.name call.toolIndex true call.parameters], none⟩ := by
  simp only [AnthropicStream.onCall, hs, ↓reduceIte]
  have hopen : Reaches c (s.openTool uuid call.name call.toolIndex true)
      (d.start false call.name call.toolIndex true) := h.openTool uuid call.name call.toolIndex true
  have hadd := hopen.append fun c' hc' => hc'.toolArgsDelta call.parameters rfl
  exact hadd.append fun c' hc' => hc'.stop rfl

theorem Follows.onCall (call : ToolCallItem) (h : Follows s c d) :
    Reaches c (s.onCall uuid call) (d.call call) := by
  by_cases hs : s.blockOpen = some .tool ∧ s.toolOrdinal = some call.toolIndex
  · simp only [AnthropicStream.onCall, hs, and_self, ↓reduceIte]
    cases hd : d.current with
    | none => cases h <;> simp_all
    | some k =>
      have hk := h.openAs hd
      cases k with
      | reasoning t => simp_all [OpenAs]
      | content t => simp_all [OpenAs]
      | call name ordinal forwards args =>
        obtain rfl : ordinal = call.toolIndex := Option.some.inj (hk.2.1.symm.trans hs.2)
        simp only [Delivery.call, hd, ↓reduceIte]
        have htop := h.topUp call.parameters hd
        exact htop.append fun c' hc' => hc'.stop rfl
  · have hd :
        d.call call = ⟨d.close.closed ++ [.call call.name call.toolIndex true call.parameters],
          none⟩ := by
      unfold Delivery.call
      split
      · rename_i name ordinal forwards args hd
        have hk := h.openAs hd
        rw [if_neg]
        rintro rfl
        exact hs ⟨hk.1, hk.2.1⟩
      · rfl
    rw [hd]
    exact h.wholeCall uuid call hs

theorem Follows.onCalls (calls : List ToolCallItem) (h : Follows s c d) :
    Reaches c (s.onCalls uuid calls) (calls.foldl Delivery.call d) := by
  induction calls generalizing s c d with
  | nil => exact h.reaches
  | cons call calls ih => exact (h.onCall uuid call).append fun c' hc' => ih hc'

theorem Follows.onItem (item : StreamItem) (h : Follows s c d) :
    Reaches c (s.onItem uuid item) (d.item false item) := by
  cases item with
  | keepalive =>
    refine ⟨c, ?_, h⟩
    cases h <;> rfl
  | event ev =>
    cases ev with
    | reasoningDelta text => exact h.onReasoning text
    | contentDelta text => exact h.onContent text
    | toolCallStart index name stable => exact h.openTool uuid name index stable
    | toolCallArgsDelta index fragment => exact h.onArgs fragment
    | toolCallsDelta calls => exact h.onCalls uuid calls

theorem Follows.onEnd (cacheReport : Bool) (e : GenEnd) (h : Follows s c d) :
    ∃ bs, c.readAll (s.onEnd cacheReport e) = some ⟨.ended, ⟨bs, none⟩⟩ ∧
      List.Forall₂ AnthropicBlock.Shows bs d.close.closed := by
  obtain ⟨⟨c', hread, hf⟩, -⟩ := h.stopOpen
  have hidle :
      ∃ bs, c' = ⟨.streaming, ⟨bs, none⟩⟩ ∧
      List.Forall₂ AnthropicBlock.Shows bs d.close.closed := by
    revert hf
    generalize hd : d.close = d'
    intro hf
    cases hf with
    | idle hi hs ho => exact ⟨_, rfl, hs⟩
    | busy hi hs hu hb ho => simp [Delivery.close] at hd
  obtain ⟨bs, rfl, hs⟩ := hidle
  refine ⟨bs, ?_, hs⟩
  cases e with
  | done e =>
    show c.readAll (s.stopOpen.2 ++ _) = _
    rw [AnthropicClient.readAll_append hread]
    rfl
  | generationError message code =>
    show c.readAll (s.stopOpen.2 ++ _) = _
    rw [AnthropicClient.readAll_append hread]
    rfl
  | exception message =>
    show c.readAll (s.stopOpen.2 ++ _) = _
    rw [AnthropicClient.readAll_append hread]
    rfl

theorem Follows.frames (cacheReport : Bool) (items : List StreamItem) (e : GenEnd)
    (h : Follows s c d) :
    ∃ bs, c.readAll (s.frames uuid cacheReport items e) = some ⟨.ended, ⟨bs, none⟩⟩ ∧
      List.Forall₂ AnthropicBlock.Shows bs (d.blocks false items) := by
  induction items generalizing s c d with
  | nil => exact h.onEnd cacheReport e
  | cons item items ih =>
    obtain ⟨c', hread, hf⟩ := h.onItem uuid item
    obtain ⟨bs, hrest, hs⟩ := ih hf
    refine ⟨bs, ?_, hs⟩
    show c.readAll ((s.onItem uuid item).2 ++ _) = _
    rw [AnthropicClient.readAll_append hread]
    exact hrest

end AnthropicStream

theorem anthropicEventStream_shows (uuid : ℕ → Text) (model : Text) (uid : ℕ) (cacheReport : Bool)
    (items : List StreamItem) (e : GenEnd) :
    ∃ bs, AnthropicClient.readAll {} (anthropicEventStream uuid model uid cacheReport items e) =
        some ⟨.ended, ⟨bs, none⟩⟩ ∧
      List.Forall₂ AnthropicBlock.Shows bs (Delivery.blocks false {} items) := by
  have hfresh : AnthropicStream.Follows {} ⟨.streaming, {}⟩ {} := .idle rfl .nil rfl
  obtain ⟨bs, hread, hs⟩ := hfresh.frames uuid cacheReport items e
  exact ⟨bs, hread, hs⟩

end FreeToken
