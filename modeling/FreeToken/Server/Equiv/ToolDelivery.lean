import FreeToken.Server.Equiv.Delivery
import FreeToken.Server.Equiv.Generation

/-!
# Delivery of the tool calls

Each call of a generation has one block with its final arguments, unless reasoning interrupts it or
its final arguments do not extend its fragments.
-/

namespace FreeToken

open List

/-! ### Calls -/

/-- The call in a block, its name seen through `view`. -/
def Block.toolCall {ν : Type} (view : Option Text → ν) : Block → Option (ν × Text)
  | .call name _ _ args => some (view name, args)
  | _ => none

/-- The calls that an event reports as complete. -/
def GenEvent.reported {ν : Type} (view : Option Text → ν) : GenEvent → List (ν × Text)
  | .toolCallsDelta calls => calls.map fun c => (view c.name, c.parameters)
  | .reasoningDelta _ | .contentDelta _ | .toolCallStart _ _ _ | .toolCallArgsDelta _ _ => []

def StreamItem.events : List StreamItem → List GenEvent
  | [] => []
  | .keepalive :: items => events items
  | .event ev :: items => ev :: events items

/-- An event does not interrupt the open call with reasoning, and does not close it with arguments
that do not extend its fragments. -/
def StreamedCall.Keeps (o : Option StreamedCall) (ev : GenEvent) : Prop :=
  (∀ text, ev = .reasoningDelta text → o.isSome → text = []) ∧ StreamedCall.Extends o ev

variable {o : Option StreamedCall} {ev : GenEvent}

theorem StreamedCall.Keeps.of_extends
    (hev : ∀ text, ev ≠ .reasoningDelta text) (h : StreamedCall.Extends o ev) :
    StreamedCall.Keeps o ev :=
  ⟨fun text ht => absurd ht (hev text), h⟩

/-- No reasoning interrupts a call, and the final arguments of each call extend its fragments. -/
def StreamedCall.Intact (forwardAll : Bool) : Option StreamedCall → List GenEvent → Prop
  | _, [] => True
  | o, ev :: evs => StreamedCall.Keeps o ev ∧ Intact forwardAll (StreamedCall.next forwardAll o ev)
    evs

namespace Delivery

variable {ν : Type} (view : Option Text → ν) (forwardAll : Bool) (d : Delivery)

def toolCalls : List (ν × Text) := d.closed.filterMap (Block.toolCall view)

def run (evs : List GenEvent) : Delivery := evs.foldl (event forwardAll) d

/-- Keepalives deliver nothing. -/
theorem foldl_item (items : List StreamItem) :
    items.foldl (item forwardAll) d = d.run forwardAll (StreamItem.events items) := by
  induction items generalizing d with
  | nil => rfl
  | cons i items ih =>
    cases i with
    | keepalive => exact ih d
    | event ev => exact ih (d.event forwardAll ev)

/-! ### One event -/

theorem toolCalls_close :
    (d.close.toolCalls view) = d.toolCalls view ++ (d.current.toList).filterMap
    (Block.toolCall view) := by
  simp [toolCalls, close]

theorem toolCalls_close_of_streamed_eq_none (h : d.streamed = none) :
    d.close.toolCalls view = d.toolCalls view := by
  rw [toolCalls_close]
  rcases hc : d.current with _ | ⟨_ | _ | _⟩ <;> simp_all [streamed, Block.toolCall]

theorem toolCalls_ensure (kind : Block → Bool) (new : Block) (h : d.streamed = none) :
    (d.ensure kind new).toolCalls view = d.toolCalls view := by
  unfold ensure
  split
  · rfl
  · exact d.toolCalls_close_of_streamed_eq_none view h

theorem toolCalls_reasoning (text : Text) (h : d.streamed = none) :
    (d.reasoning text).toolCalls view = d.toolCalls view := by
  unfold reasoning
  split
  · rfl
  · exact d.toolCalls_ensure view _ _ h

theorem toolCalls_content (text : Text) (h : d.streamed = none) :
    (d.content text).toolCalls view = d.toolCalls view := by
  unfold content
  split
  · rfl
  · exact d.toolCalls_ensure view _ _ h

theorem toolCalls_fragment (text : Text) : (d.fragment text).toolCalls view = d.toolCalls view := by
  unfold fragment
  split <;> rfl

theorem toolCalls_call (c : ToolCallItem) (h : d.streamed = none) :
    (d.call c).toolCalls view = d.toolCalls view ++ [(view c.name, c.parameters)] := by
  have hclose := d.toolCalls_close_of_streamed_eq_none view h
  unfold call
  split
  · simp_all [streamed]
  · simp only [toolCalls] at hclose ⊢
    rw [filterMap_append, hclose]
    rfl

theorem toolCalls_foldl_call (calls : List ToolCallItem) (h : d.streamed = none) :
    (calls.foldl call d).toolCalls view =
      d.toolCalls view ++ calls.map fun c => (view c.name, c.parameters) := by
  induction calls generalizing d with
  | nil => simp
  | cons c calls ih =>
    rw [foldl_cons, ih _ (streamed_of_current_eq_none _ (d.current_call c)), d.toolCalls_call view c
      h]
    simp

/-! ### Bounds -/

theorem closed_prefix_close : d.closed <+: d.close.closed := prefix_append _ _

theorem closed_prefix_ensure (kind : Block → Bool) (new : Block) :
    d.closed <+: (d.ensure kind new).closed := by
  unfold ensure
  split
  · exact prefix_refl _
  · exact d.closed_prefix_close

theorem closed_prefix_call (c : ToolCallItem) : d.closed <+: (d.call c).closed := by
  unfold call
  split
  · split
    · exact prefix_append _ _
    · exact d.closed_prefix_close.trans (prefix_append _ _)
  · exact d.closed_prefix_close.trans (prefix_append _ _)

theorem closed_prefix_foldl_call (calls : List ToolCallItem) :
    d.closed <+: (calls.foldl call d).closed := by
  induction calls generalizing d with
  | nil => exact prefix_refl _
  | cons c calls ih => exact (d.closed_prefix_call c).trans (ih _)

theorem closed_prefix_event (ev : GenEvent) : d.closed <+: (d.event forwardAll ev).closed := by
  cases ev with
  | reasoningDelta text =>
    show d.closed <+: (d.reasoning text).closed
    unfold reasoning
    split
    · exact prefix_refl _
    · exact d.closed_prefix_ensure _ _
  | contentDelta text =>
    show d.closed <+: (d.content text).closed
    unfold content
    split
    · exact prefix_refl _
    · exact d.closed_prefix_ensure _ _
  | toolCallStart index name stable => exact d.closed_prefix_close
  | toolCallArgsDelta index text =>
    show d.closed <+: (d.fragment text).closed
    unfold fragment
    split <;> exact prefix_refl _
  | toolCallsDelta calls => exact d.closed_prefix_foldl_call calls

theorem closed_prefix_run (evs : List GenEvent) : d.closed <+: (d.run forwardAll evs).closed := by
  induction evs generalizing d with
  | nil => exact prefix_refl _
  | cons ev evs ih => exact (d.closed_prefix_event forwardAll ev).trans (ih _)

theorem toolCalls_prefix_run (evs : List GenEvent) :
    d.toolCalls view <+: (d.run forwardAll evs).close.toolCalls view :=
  ((d.closed_prefix_run forwardAll evs).trans (closed_prefix_close _)).filterMap _

theorem length_toolCalls_call (c : ToolCallItem) :
    (d.toolCalls view).length + 1 ≤ ((d.call c).toolCalls view).length := by
  unfold call
  split
  · split
    · simp [toolCalls, Block.toolCall]
    · simp [toolCalls, close, Block.toolCall]
  · simp [toolCalls, close, Block.toolCall]

theorem length_toolCalls_foldl_call (calls : List ToolCallItem) :
    (d.toolCalls view).length + calls.length ≤ ((calls.foldl call d).toolCalls view).length := by
  induction calls generalizing d with
  | nil => simp
  | cons c calls ih =>
    have hfirst := d.length_toolCalls_call view c
    have hrest := ih (d.call c)
    simp only [length_cons, foldl_cons]
    omega

theorem length_toolCalls_event (ev : GenEvent) :
    (d.toolCalls view).length + (ev.reported view).length ≤
    ((d.event forwardAll ev).toolCalls view).length := by
  have hgrow : (d.toolCalls view).length ≤ ((d.event forwardAll ev).toolCalls view).length :=
    ((d.closed_prefix_event forwardAll ev).filterMap _).length_le
  cases ev with
  | toolCallsDelta calls =>
    show _ ≤ ((calls.foldl call d).toolCalls view).length
    simpa [GenEvent.reported] using d.length_toolCalls_foldl_call view calls
  | _ => simpa [GenEvent.reported] using hgrow

theorem length_toolCalls_run (evs : List GenEvent) :
    (d.toolCalls view).length + (evs.flatMap (GenEvent.reported view)).length ≤
      ((d.run forwardAll evs).close.toolCalls view).length := by
  induction evs generalizing d with
  | nil => exact (d.closed_prefix_close.filterMap _).length_le
  | cons ev evs ih =>
    have hev := d.length_toolCalls_event view forwardAll ev
    have hrest := ih (d.event forwardAll ev)
    rw [flatMap_cons, length_append]
    show _ ≤ (((d.event forwardAll ev).run forwardAll evs).close.toolCalls view).length
    omega

/-! ### In step with the generation -/

/-- The open block is the call that the generation has open. -/
def InStep (t : Transcript) (d : Delivery) : Prop :=
  match t.opened with
  | none => d.streamed = none
  | some name => ∃ forwards args, d.current = some (.call name t.calls forwards args)

variable {view forwardAll d} {t t' : Transcript} {ev : GenEvent}

theorem InStep.streamed_eq_none (h : InStep t d) (ht : t.opened = none) : d.streamed = none := by
  simpa [InStep, ht] using h

theorem InStep.current_eq {name : Option Text} (h : InStep t d) (ht : t.opened = some name) :
    ∃ forwards args, d.current = some (.call name t.calls forwards args) := by
  simpa [InStep, ht] using h

/-- An event that keeps the open call adds the calls that it reports. -/
theorem InStep.event (view : Option Text → ν) (forwardAll : Bool) (h : InStep t d)
    (ha : t.accept ev = some t') (hk : StreamedCall.Keeps d.streamed ev) :
    InStep t' (d.event forwardAll ev) ∧
      (d.event forwardAll ev).toolCalls view = d.toolCalls view ++ ev.reported view := by
  cases ev with
  | reasoningDelta text =>
    obtain rfl : t = t' := Option.some.inj ha
    rw [GenEvent.reported, append_nil]
    cases ht : t.opened with
    | none =>
      have hs := h.streamed_eq_none ht
      refine ⟨?_, d.toolCalls_reasoning view text hs⟩
      simp only [InStep, ht]
      show (d.reasoning text).streamed = none
      rw [streamed_reasoning, hs, ite_self]
    | some name =>
      obtain ⟨forwards, args, hc⟩ := h.current_eq ht
      -- only empty reasoning arrives inside a call
      obtain rfl : text = [] := hk.1 text rfl (by simp [streamed, hc])
      exact ⟨h, rfl⟩
  | contentDelta text =>
    simp only [Transcript.accept, Option.ite_none_right_eq_some, Option.some.injEq,
      Option.isNone_iff_eq_none] at ha
    obtain ⟨ht, rfl⟩ := ha
    have hs := h.streamed_eq_none ht
    refine ⟨?_, ?_⟩
    · simp only [InStep, ht]
      show (d.content text).streamed = none
      rw [streamed_content, hs, ite_self]
    · rw [GenEvent.reported, append_nil]
      exact d.toolCalls_content view text hs
  | toolCallStart index name stable =>
    simp only [Transcript.accept, Option.ite_none_right_eq_some, Option.some.injEq,
      Option.isNone_iff_eq_none] at ha
    obtain ⟨⟨ht, rfl⟩, rfl⟩ := ha
    refine ⟨⟨_, _, rfl⟩, ?_⟩
    rw [GenEvent.reported, append_nil]
    exact d.toolCalls_close_of_streamed_eq_none view (h.streamed_eq_none ht)
  | toolCallArgsDelta index text =>
    simp only [Transcript.accept, Option.ite_none_right_eq_some, Option.some.injEq] at ha
    obtain ⟨⟨ht, rfl⟩, rfl⟩ := ha
    refine ⟨?_, ?_⟩
    · obtain ⟨name, ht⟩ := Option.isSome_iff_exists.mp ht
      obtain ⟨forwards, args, hc⟩ := h.current_eq ht
      simp only [InStep, ht]
      show ∃ forwards args, (d.fragment text).current = _
      cases forwards <;> simp [fragment, hc]
    · rw [GenEvent.reported, append_nil]
      exact d.toolCalls_fragment view text
  | toolCallsDelta calls =>
    show InStep t' (calls.foldl call d) ∧ (calls.foldl call d).toolCalls view = _
    cases ht : t.opened with
    | none =>
      have hs := h.streamed_eq_none ht
      simp only [Transcript.accept, ht, Option.some.injEq] at ha
      subst ha
      refine ⟨?_, d.toolCalls_foldl_call view calls hs⟩
      simp only [InStep, ht, streamed_foldl_call, hs, ite_self]
    | some name =>
      obtain ⟨forwards, args, hc⟩ := h.current_eq ht
      simp only [Transcript.accept, ht] at ha
      split at ha
      · rename_i c
        split at ha
        · rename_i hcall
          obtain ⟨hi, rfl⟩ := hcall
          obtain rfl := Option.some.inj ha
          have hext : args <+: c.parameters := hk.2 _ (by simp [streamed, hc]; rfl) c rfl hi.symm
          refine ⟨?_, ?_⟩
          · exact streamed_of_current_eq_none _ (d.current_call c)
          · simp [call, hc, hi, toolCalls, topped, hext, Block.toolCall, GenEvent.reported]
        · simp at ha
      · simp at ha

theorem toolCalls_reasoning_of_call {name : Option Text} {ordinal : ℤ} {forwards : Bool}
    {args text : Text} (hc : d.current = some (.call name ordinal forwards args)) (ht : text ≠ []) :
    (d.reasoning text).toolCalls view = d.toolCalls view ++ [(view name, args)] := by
  simp [reasoning, ht, ensure, hc, Block.isReasoning, add, toolCalls, close, Block.toolCall]

/-- Behind an event that does not keep the open call, the blocks are not the reported calls. -/
theorem InStep.event_ne (h : InStep t d) (ha : t.accept ev = some t')
    (hk : ¬StreamedCall.Keeps d.streamed ev) (evs : List GenEvent) :
    ((d.event forwardAll ev).run forwardAll evs).close.toolCalls view ≠
      d.toolCalls view ++ (ev.reported view ++ evs.flatMap (GenEvent.reported view)) := by
  intro heq
  cases ev with
  | reasoningDelta text =>
    cases ht : t.opened with
    | none =>
      apply hk
      refine ⟨?_, trivial⟩
      simp [h.streamed_eq_none ht]
    | some name =>
      obtain ⟨forwards, args, hc⟩ := h.current_eq ht
      have htext : text ≠ [] := by
        rintro rfl
        exact hk ⟨fun text ht _ => (GenEvent.reasoningDelta.inj ht).symm, trivial⟩
      -- there is a block too many
      have hblock : (d.event forwardAll (.reasoningDelta text)).toolCalls view =
          d.toolCalls view ++ [(view name, args)] := toolCalls_reasoning_of_call hc htext
      have hlen :=
        length_toolCalls_run view forwardAll (d.event forwardAll (.reasoningDelta text)) evs
      rw [heq, hblock] at hlen
      simp only [GenEvent.reported, nil_append, length_append, length_singleton] at hlen
      omega
  | contentDelta text => exact hk (.of_extends (by simp) trivial)
  | toolCallStart index name stable => exact hk (.of_extends (by simp) trivial)
  | toolCallArgsDelta index text => exact hk (.of_extends (by simp) trivial)
  | toolCallsDelta calls =>
    cases ht : t.opened with
    | none =>
      apply hk
      apply StreamedCall.Keeps.of_extends (by simp)
      simp [StreamedCall.Extends, h.streamed_eq_none ht]
    | some name =>
      obtain ⟨forwards, args, hc⟩ := h.current_eq ht
      simp only [Transcript.accept, ht] at ha
      split at ha
      · rename_i c
        split at ha
        · rename_i hcall
          obtain ⟨hi, rfl⟩ := hcall
          have hext : ¬args <+: c.parameters := by
            intro hp
            apply hk
            apply StreamedCall.Keeps.of_extends (by simp)
            simp [StreamedCall.Extends, streamed, hc, hp]
          -- the block has the fragments for arguments
          have hblock : (d.event forwardAll (.toolCallsDelta [c])).toolCalls view =
              d.toolCalls view ++ [(view c.name, args)] := by
            show (d.call c).toolCalls view = _
            simp [call, hc, hi, toolCalls, topped, hext, Block.toolCall]
          have hpre :=
            toolCalls_prefix_run view forwardAll (d.event forwardAll (.toolCallsDelta [c])) evs
          rw [heq, hblock, prefix_append_right_inj] at hpre
          obtain ⟨hname, hargs⟩ : view c.name = view c.name ∧ args = c.parameters := by
            simpa [GenEvent.reported] using hpre
          exact hext (hargs ▸ prefix_refl _)
        · simp at ha
      · simp at ha

/-- The blocks of a completed generation are the calls that it reports if and only if all events
keep the open call. -/
theorem InStep.run_iff {n : ℕ} (evs : List GenEvent) (h : InStep t d)
    (ha : t.acceptAll evs = some ⟨n, none⟩) :
    (d.run forwardAll evs).close.toolCalls view =
        d.toolCalls view ++ evs.flatMap (GenEvent.reported view) ↔
      StreamedCall.Intact forwardAll d.streamed evs := by
  induction evs generalizing t d with
  | nil =>
    obtain rfl : t = ⟨n, none⟩ := Option.some.inj ha
    have hclose := d.toolCalls_close_of_streamed_eq_none view (h.streamed_eq_none rfl)
    simp [run, hclose, StreamedCall.Intact]
  | cons ev evs ih =>
    simp only [Transcript.acceptAll, foldlM_cons, Option.bind_eq_bind, Option.bind_eq_some_iff]
      at ha
    obtain ⟨t', hev, hrest⟩ := ha
    by_cases hk : StreamedCall.Keeps d.streamed ev
    · obtain ⟨hstep, hcalls⟩ := h.event view forwardAll hev hk
      have hiff := ih hstep hrest
      rw [hcalls, append_assoc, streamed_event] at hiff
      exact hiff.trans (and_iff_right hk).symm
    · constructor
      · intro heq
        exact absurd heq (h.event_ne hev hk evs)
      · intro hi
        exact absurd hi.1 hk

end Delivery

/-! ### Held fragments -/

variable {o' : Option StreamedCall}

namespace StreamedCall

/-- The open call, when fewer fragments have been forwarded. -/
def Weaker (o o' : Option StreamedCall) : Prop :=
  match o, o' with
  | none, none => True
  | some c, some c' => c'.ordinal = c.ordinal ∧ c.forwards = true ∧
    (c' = c ∨ c'.forwards = false ∧ c'.sent = [])
  | _, _ => False

theorem Weaker.next {o o' : Option StreamedCall} (h : Weaker o o') (ev : GenEvent) :
    Weaker (StreamedCall.next true o ev) (StreamedCall.next false o' ev) := by
  cases ev with
  | reasoningDelta text | contentDelta text =>
    by_cases ht : text = []
    · simpa [StreamedCall.next, ht] using h
    · simp [StreamedCall.next, ht, Weaker]
  | toolCallStart index name stable => cases stable <;> simp [StreamedCall.next, Weaker]
  | toolCallArgsDelta index text =>
    rcases o with _ | ⟨i, f, t⟩ <;> rcases o' with _ | ⟨i', f', t'⟩ <;>
      simp_all [StreamedCall.next, Weaker]
    rcases h.2.2 with h' | h' <;> simp_all
  | toolCallsDelta calls =>
    by_cases hc : calls = []
    · simpa [StreamedCall.next, hc] using h
    · simp [StreamedCall.next, hc, Weaker]

theorem Weaker.keeps (h : Weaker o o') (hk : Keeps o ev) :
    Keeps o' ev := by
  rcases o with _ | c <;> rcases o' with _ | c'
  · exact hk
  · simp [Weaker] at h
  · simp [Weaker] at h
  · obtain ⟨hord, -, hsent⟩ := h
    refine ⟨fun text ht _ => hk.1 text ht rfl, ?_⟩
    cases ev with
    | toolCallsDelta calls =>
      rintro c₂ hc₂ call hcall ho
      obtain rfl := Option.some.inj hc₂
      rcases hsent with rfl | ⟨-, hnil⟩
      · exact hk.2 _ rfl call hcall ho
      · rw [hnil]
        exact nil_prefix
    | _ => trivial

/-- Where all fragments are forwarded, no fewer calls are disturbed. -/
theorem Intact.weaken (evs : List GenEvent) (h : Weaker o o')
    (hi : Intact true o evs) : Intact false o' evs := by
  induction evs generalizing o o' with
  | nil => trivial
  | cons ev evs ih => exact ⟨h.keeps hi.1, ih (h.next ev) hi.2⟩

theorem Intact.topsUp (items : List StreamItem)
    (hi : Intact true o (StreamItem.events items)) : TopsUp true o items := by
  induction items generalizing o with
  | nil => trivial
  | cons item items ih =>
    cases item with
    | keepalive => exact ih hi
    | event ev => exact ⟨hi.1.2, ih hi.2⟩

end StreamedCall

end FreeToken
