import FreeToken.Server.Equiv.Generation
import FreeToken.Utils.Equiv.Strip
import Mathlib.Data.List.Forall2

/-!
# The answer of a stream

The events of a stream, put together, in terms of what the detector of its tool parser finds in the
text.
-/

namespace FreeToken

open List Text

/-! ### The answer of a stream -/

/-- The events of a stream, put together.  `runs` has the content before each call, `run` the
content behind the last one. -/
structure Answer where
  reasoning : Text := []
  runs : List Text := []
  run : Text := []
  calls : List ToolCallItem := []
deriving DecidableEq, Repr

namespace Answer

def add (ans : Answer) : GenEvent → Answer
  | .reasoningDelta text => { ans with reasoning := ans.reasoning ++ text }
  | .contentDelta text => { ans with run := ans.run ++ text }
  | .toolCallsDelta calls =>
    { ans with runs := ans.runs ++ [ans.run], run := [], calls := ans.calls ++ calls }
  | .toolCallStart .. => ans
  | .toolCallArgsDelta .. => ans

def addAll (ans : Answer) (evs : List GenEvent) : Answer := evs.foldl add ans

/-- The stretches of content between the calls. -/
def contents (ans : Answer) : List Text := ans.runs ++ [ans.run]

@[simp]
theorem addAll_nil (ans : Answer) : ans.addAll [] = ans := rfl

theorem addAll_append (ans : Answer) (evs evs' : List GenEvent) :
    ans.addAll (evs ++ evs') = (ans.addAll evs).addAll evs' := foldl_append

end Answer

/-- A text is made of stretches, up to whitespace at its ends and around each. -/
def UpToSpace (runs : List Text) (text : Text) : Prop :=
  ∃ parts, List.Forall₂ (fun part run => strip part = strip run) parts runs ∧
    strip text = strip parts.flatten

/-- Stripping the special tokens from the pieces one by one strips them from the whole: none is cut.
-/
def Uncut (specials : List Text) (pieces : List Text) : Prop :=
  stripSpecialTokens pieces.flatten specials = (pieces.map (stripSpecialTokens · specials)).flatten

instance (specials pieces : List Text) : Decidable (Uncut specials pieces) :=
  inferInstanceAs (Decidable (_ = _))

/-- Special tokens whose ends are not whitespace. -/
def SolidTokens (specials : List Text) : Prop := ∀ s ∈ specials, s ≠ [] → SolidEnds s

def NoSpecial (specials : List Text) (text : Text) : Prop := ∀ s ∈ specials, s ≠ [] → ¬s <:+: text

theorem stripSpecialTokens_nil (specials : List Text) : stripSpecialTokens [] specials = [] := by
  induction specials with
  | nil => rfl
  | cons s specials ih =>
    have hstep : (if s = [] then [] else remove s []) = ([] : Text) := by
      split_ifs <;> rfl
    rw [stripSpecialTokens, foldl_cons, hstep]
    exact ih

variable {specials : List Text}

/-- Whitespace around a text stays around what is left of it. -/
theorem SolidTokens.stripSpecialTokens_between (h : SolidTokens specials) {w x u : Text}
    (hw : Blank w) (hu : Blank u) :
    stripSpecialTokens (w ++ x ++ u) specials = w ++ stripSpecialTokens x specials ++ u := by
  induction specials generalizing x with
  | nil => rfl
  | cons s specials ih =>
    have hrest : SolidTokens specials := fun t ht => h t (mem_cons_of_mem _ ht)
    have hstep : (if s = [] then w ++ x ++ u else remove s (w ++ x ++ u)) =
        w ++ (if s = [] then x else remove s x) ++ u := by
      split_ifs with hs
      · rfl
      · exact (h s mem_cons_self hs).remove_between hw hu
    rw [stripSpecialTokens, foldl_cons, hstep]
    exact ih hrest

/-- What is left of two texts that differ in whitespace at their ends does so too. -/
theorem SolidTokens.strip_congr (h : SolidTokens specials) {t t' : Text}
    (ht : strip t = strip t') :
    strip (stripSpecialTokens t specials) = strip (stripSpecialTokens t' specials) := by
  have hinner :
      ∀ t, strip (stripSpecialTokens t specials) =
      strip (stripSpecialTokens (strip t) specials) := by
    intro t
    obtain ⟨w, u, hw, hu, hsplit⟩ := eq_append_strip t
    conv_lhs => rw [hsplit]
    rw [h.stripSpecialTokens_between hw hu, strip_between hw hu]
  rw [hinner t, hinner t', ht]

theorem SolidTokens.noSpecial_strip (h : SolidTokens specials) {t : Text} :
    NoSpecial specials (strip t) ↔ NoSpecial specials t := by
  unfold NoSpecial
  constructor
  · exact fun hno s hs hne hin => hno s hs hne ((h s hs hne).infix_strip.mpr hin)
  · exact fun hno s hs hne hin => hno s hs hne ((h s hs hne).infix_strip.mp hin)

/-! ### What a detector finds -/

/-- What a detector finds in a text: plain text, or a call with the pieces of its arguments. -/
inductive Found where
  | text (payload : Text)
  | call (index : ℤ) (name : Text) (first : Text) (more : List Text)
deriving DecidableEq, Repr

namespace Found

/-- How it is streamed: a call has its name first, and then its arguments. -/
def atoms : Found → List ParseSegment
  | text payload => [.text payload]
  | call index name first more =>
    .calls [⟨index, some name, first⟩] :: more.map fun fragment => .calls [⟨index, none, fragment⟩]

def index : Found → Option ℤ
  | text _ => none
  | call index .. => some index

/-- The name and the arguments of a call. -/
def nameArgs : Found → Option (Option Text × Text)
  | text _ => none
  | call _ name first more => some (some name, first ++ more.flatten)

/-- The pieces of text before each call, and behind the last one. -/
def runPieces (found : List Found) : List (List Text) × List Text :=
  found.foldl (fun r x =>
    match x with
    | text payload => (r.1, r.2 ++ [payload])
    | call .. => (r.1 ++ [r.2], [])) ([], [])

/-- The stretches of text between the calls, in pieces. -/
def stretches (found : List Found) : List (List Text) :=
  (runPieces found).1 ++ [(runPieces found).2]

end Found

/-- The fragments of a segment, one by one. -/
def ParseSegment.atoms : ParseSegment → List ParseSegment
  | .text payload => [.text payload]
  | .calls payload => payload.map fun frag => .calls [frag]

section

variable {τ : Type} [FunctionCallParser τ]

/-- A tool parser gets the pieces of a text one after the other. -/
def feedPieces (p : τ) : List Text → τ × List ParseSegment
  | [] => (p, [])
  | piece :: pieces =>
    if piece = [] then feedPieces p pieces
    else
      let (p, segments) := FunctionCallParser.parseStreamEvents p piece
      let (p, rest) := feedPieces p pieces
      (p, segments ++ rest)

/-- The text that a tool parser has held back to the end. -/
def residualText (p : τ) (pieces : List Text) : Text :=
  (FunctionCallParser.finishStream (FunctionCallParser.recoverTruncatedCall
    (FunctionCallParser.finalizeStream (feedPieces p pieces).1).1).1).2

/-- What the detector of a tool parser finds in a complete text that it gets in pieces.  It agrees
with its parse of the whole text. -/
structure ToolDetection [ToolDetector τ] (validJson : Text → Bool) (p : τ) (pieces : List Text)
    where
  found : List Found
  /-- The normal text of the one-shot parse, cut at the calls. -/
  parts : List Text
  segments : (feedPieces p pieces).2.flatMap ParseSegment.atoms = found.flatMap Found.atoms
  /-- Each call has a number of its own. -/
  numbered : (found.filterMap Found.index).Nodup
  /-- Fragments concatenate to the arguments, which are closed before the call ends. -/
  valid : ∀ c ∈ found.filterMap Found.nameArgs, validJson c.2
  /-- No call is cut off. -/
  finalized : (FunctionCallParser.finalizeStream (feedPieces p pieces).1).2 = []
  recovered : (FunctionCallParser.recoverTruncatedCall
    (FunctionCallParser.finalizeStream (feedPieces p pieces).1).1).2 = []
  calls : found.filterMap Found.nameArgs =
    (ToolDetector.parseNonStream p pieces.flatten).2.map fun item => (item.name, item.parameters)
  text : (ToolDetector.parseNonStream p pieces.flatten).1 = parts.flatten
  parts_eq : List.Forall₂ (fun part run => strip part = strip run.flatten) parts
    (Found.stretches (found ++ [.text (residualText p pieces)]))

end

/-! ### The assembly of what is found -/

/-- An answer whose calls are all closed: how many there are, and whether whitespace is swallowed.
-/
structure Shown where
  ans : Answer := {}
  suppress : Bool := false
  count : ℕ := 0
deriving DecidableEq, Repr

namespace Shown

variable (specials : List Text) (s : Shown)

def text (payload : Text) : Shown :=
  if stripSpecialTokens payload specials = [] ∨
      ((stripSpecialTokens payload specials).all isSpace ∧ s.suppress) then s
  else
    { s with
      ans := s.ans.add (.contentDelta (stripSpecialTokens payload specials))
      suppress := s.suppress && (stripSpecialTokens payload specials).all isSpace }

def call (name : Option Text) (args : Text) : Shown where
  ans := s.ans.add (.toolCallsDelta [⟨s.count, name, args⟩])
  suppress := true
  count := s.count + 1

def found : Found → Shown
  | .text payload => s.text specials payload
  | .call _ name first more => s.call (some name) (first ++ more.flatten)

end Shown

variable {segs : List ParseSegment} {c : OpenCall}

namespace ToolAssembly

variable {τ : Type} [FunctionCallParser τ] {validJson : Text → Bool} {specials : List Text}
  {a a' : ToolAssembly τ} {ans : Answer} {evs : List GenEvent}

omit [FunctionCallParser τ] in
/-- What an assembly shows, with its open call as if it were closed. -/
def view (a : ToolAssembly τ) (ans : Answer) : Shown :=
  match a.openCall with
  | none => ⟨ans, a.suppressWs, a.callsEmitted⟩
  | some c => Shown.call ⟨ans, a.suppressWs, a.callsEmitted⟩ c.name c.params

omit [FunctionCallParser τ] in
theorem view_none (h : a.openCall = none) : a.view ans = ⟨ans, a.suppressWs, a.callsEmitted⟩ := by
  rw [view, h]

omit [FunctionCallParser τ] in
theorem view_some (h : a.openCall = some c) :
    a.view ans = Shown.call ⟨ans, a.suppressWs, a.callsEmitted⟩ c.name c.params := by
  rw [view, h]

omit [FunctionCallParser τ] in
/-- The open call has the next number, and its arguments are complete. -/
structure Ready (validJson : Text → Bool) (a : ToolAssembly τ) : Prop where
  numbered : a.Numbered
  valid : ∀ c ∈ a.openCall, validJson c.params

theorem Ready.closeOpenCall (h : a.Ready validJson) (hempty : validJson [] = false) :
    (a.closeOpenCall validJson).1.openCall = none ∧
      (a.closeOpenCall validJson).1.view (ans.addAll (a.closeOpenCall validJson).2) =
      a.view ans := by
  cases hc : a.openCall with
  | none =>
    have hstep : a.closeOpenCall validJson = (a, []) := by simp [ToolAssembly.closeOpenCall, hc]
    rw [hstep]
    exact ⟨hc, rfl⟩
  | some c =>
    have hord : c.ordinal = a.callsEmitted := h.numbered c hc
    have hvalid : validJson c.params := h.valid c hc
    have hne : c.params ≠ [] := by
      intro hnil
      rw [hnil, hempty] at hvalid
      exact absurd hvalid (by simp)
    have hfinal : a.finalParams validJson c = c.params := by
      unfold finalParams
      rw [if_pos hvalid]
      exact if_neg hne
    simp only [ToolAssembly.closeOpenCall, hc, hfinal, hord]
    refine ⟨trivial, ?_⟩
    rw [view_some hc]
    rfl

omit [FunctionCallParser τ] in
theorem view_content (hc : a.openCall = none) (payload : Text) :
    (a.content specials payload).1.openCall = none ∧
      (a.content specials payload).1.view (ans.addAll (a.content specials payload).2) =
        (a.view ans).text specials payload := by
  unfold content
  rw [view_none hc]
  simp only [Shown.text]
  split_ifs
  · exact ⟨hc, view_none hc⟩
  · exact ⟨hc, view_none hc⟩

/-- Text closes the open call, and is shown. -/
theorem Ready.routeSegment_text (h : a.Ready validJson) (hempty : validJson [] = false)
    (payload : Text) :
    (a.routeSegment validJson specials (.text payload)).1.openCall = none ∧
      (a.routeSegment validJson specials (.text payload)).1.view
          (ans.addAll (a.routeSegment validJson specials (.text payload)).2) =
        (a.view ans).text specials payload := by
  obtain ⟨hc, hview⟩ := @Ready.closeOpenCall _ _ _ _ ans h hempty
  obtain ⟨hc', hview'⟩ :=
    @view_content _ specials _ (ans.addAll (a.closeOpenCall validJson).2) hc payload
  simp only [routeSegment]
  rw [Answer.addAll_append, ← hview]
  exact ⟨hc', hview'⟩

theorem Ready.routeSegment_first (h : a.Ready validJson) (hempty : validJson [] = false) (index : ℤ)
    (name first : Text) (hindex : ∀ c ∈ a.openCall, c.detectorIndex ≠ index) :
    ∃ n, (a.routeSegment validJson specials (.calls [⟨index, some name, first⟩])).1.openCall =
        some ⟨index, some name, first, n⟩ ∧
      (a.routeSegment validJson specials (.calls [⟨index, some name, first⟩])).1.Numbered ∧
      (⟨ans.addAll (a.routeSegment validJson specials (.calls [⟨index, some name, first⟩])).2,
        (a.routeSegment validJson specials (.calls [⟨index, some name, first⟩])).1.suppressWs,
        (a.routeSegment validJson specials (.calls [⟨index, some name, first⟩])).1.callsEmitted⟩ :
        Shown) = a.view ans := by
  have hnum := h.numbered.routeSegment validJson specials (.calls [⟨index, some name, first⟩])
  obtain ⟨hc, hview⟩ := @Ready.closeOpenCall _ _ _ _ ans h hempty
  have hnew : a.startsNew ⟨index, some name, first⟩ = true := by
    unfold startsNew
    cases ho : a.openCall with
    | none => rfl
    | some c => simpa using (hindex c ho).symm
  have hroute : a.routeSegment validJson specials (.calls [⟨index, some name, first⟩]) =
      ((({ (a.closeOpenCall validJson).1 with openCall := some ⟨index, some name, [],
            (a.closeOpenCall validJson).1.callsEmitted⟩ } : ToolAssembly τ).addFragment first).1,
        (a.closeOpenCall validJson).2 ++
          [.toolCallStart (a.closeOpenCall validJson).1.callsEmitted (some name)
            (FunctionCallParser.argsFragmentsPrefixStable (a.closeOpenCall validJson).1.parser)] ++
          (({ (a.closeOpenCall validJson).1 with openCall := some ⟨index, some name, [],
            (a.closeOpenCall validJson).1.callsEmitted⟩ } : ToolAssembly τ).addFragment first).2 ++
              []) := by
    simp only [routeSegment, each, routeFragment, hnew, hc, ↓reduceIte, Option.isNone_none, openFor]
  rw [hroute] at hnum ⊢
  generalize a.closeOpenCall validJson = r at hc hview hnum ⊢
  rw [view_none hc] at hview
  refine ⟨r.1.callsEmitted, ?_, hnum.1, ?_⟩
  · unfold addFragment
    by_cases hnil : first = []
    · simp [hnil]
    · simp [hnil]
  · unfold addFragment
    rw [← hview]
    by_cases hnil : first = []
    · simp [hnil, Answer.addAll_append]
      rfl
    · simp [hnil, Answer.addAll_append]
      rfl

theorem routeSegment_more {c : OpenCall} (hc : a.openCall = some c) (index : ℤ) (fragment : Text) :
    (a.routeSegment validJson specials (.calls [⟨index, none, fragment⟩])).1 =
        { a with openCall := some { c with params := c.params ++ fragment } } ∧
      ans.addAll (a.routeSegment validJson specials (.calls [⟨index, none, fragment⟩])).2 =
        ans := by
  have hnew : a.startsNew ⟨index, none, fragment⟩ = false := rfl
  simp only [routeSegment, each, routeFragment, hnew, hc, Bool.false_eq_true, ↓reduceIte,
    Option.isNone_some]
  unfold addFragment
  by_cases hnil : fragment = []
  · have hself : a = { a with openCall := some c } := by rw [← hc]
    simp only [hc, hnil, ↓reduceIte, append_nil]
    exact ⟨hself, rfl⟩
  · simp only [hc, hnil, ↓reduceIte]
    exact ⟨trivial, rfl⟩

/-! ### Runs -/

/-- A run of an assembly over segments.  The parser may change between them. -/
inductive Steps (validJson : Text → Bool) (specials : List Text) :
    ToolAssembly τ → List ParseSegment → ToolAssembly τ → List GenEvent → Prop where
  | done (a : ToolAssembly τ) (parser : τ) : Steps validJson specials a [] { a with parser } []
  | step (a : ToolAssembly τ) (parser : τ) {seg : ParseSegment} {segs : List ParseSegment}
      {a' : ToolAssembly τ} {evs : List GenEvent}
      (h : Steps validJson specials (routeSegment validJson specials { a with parser } seg).1 segs
        a' evs) :
      Steps validJson specials a (seg :: segs) a'
        ((routeSegment validJson specials { a with parser } seg).2 ++ evs)

theorem Steps.of_newParser {parser : τ}
    (h : Steps validJson specials { a with parser } segs a' evs) :
    Steps validJson specials a segs a' evs := by
  cases h with
  | done _ p => exact .done a p
  | step _ p h => exact .step a p h

theorem Steps.append {segs segs' : List ParseSegment} {a'' : ToolAssembly τ} {evs' : List GenEvent}
    (h : Steps validJson specials a segs a' evs) (h' : Steps validJson specials a' segs' a'' evs') :
    Steps validJson specials a (segs ++ segs') a'' (evs ++ evs') := by
  induction h with
  | done a p => exact h'.of_newParser
  | step a p _ ih =>
    rw [append_assoc]
    exact .step a p (ih h')

/-- The fragments of a segment, one by one. -/
theorem steps_routeSegment (seg : ParseSegment) :
    Steps validJson specials a seg.atoms (a.routeSegment validJson specials seg).1
      (a.routeSegment validJson specials seg).2 := by
  cases seg with
  | text payload =>
    have hdone := @Steps.done _ _ validJson specials
      (a.routeSegment validJson specials (.text payload)).1
      (a.routeSegment validJson specials (.text payload)).1.parser
    have hstep := Steps.step a a.parser hdone
    rwa [append_nil] at hstep
  | calls payload =>
    induction payload generalizing a with
    | nil => exact .done a a.parser
    | cons frag payload ih =>
      have hone :
        a.routeSegment validJson specials (.calls [frag]) = a.routeFragment validJson frag := by
        simp only [routeSegment, each, append_nil]
      have hrest := @ih (a.routeFragment validJson frag).1
      rw [← hone] at hrest
      have hstep := Steps.step a a.parser hrest
      have hevs : (a.routeSegment validJson specials (.calls [frag])).2 ++
          ((a.routeSegment validJson specials (.calls [frag])).1.routeSegment validJson specials
            (.calls payload)).2 =
          (a.routeSegment validJson specials (.calls (frag :: payload))).2 := by
        rw [hone]
        rfl
      rw [← hevs]
      have hlast :
          ((a.routeSegment validJson specials (.calls [frag])).1.routeSegment validJson specials
          (.calls payload)).1 =
            (a.routeSegment validJson specials (.calls (frag :: payload))).1 := by
        rw [hone]
        rfl
      rw [← hlast]
      exact hstep

theorem steps_each (segs : List ParseSegment) :
    Steps validJson specials a (segs.flatMap ParseSegment.atoms)
      (each (fun a seg => a.routeSegment validJson specials seg) a segs).1
      (each (fun a seg => a.routeSegment validJson specials seg) a segs).2 := by
  induction segs generalizing a with
  | nil => exact .done a a.parser
  | cons seg segs ih => exact (steps_routeSegment seg).append ih

theorem Steps.more (index : ℤ) {more : List Text}
    (hc : a.openCall = some c)
    (h : Steps validJson specials a ((more.map fun fragment => .calls [⟨index, none, fragment⟩]) ++
      segs) a' evs) :
    ∃ b evs', Steps validJson specials b segs a' evs' ∧
      b.openCall = some { c with params := c.params ++ more.flatten } ∧
        b.suppressWs = a.suppressWs ∧
      b.callsEmitted = a.callsEmitted ∧ ∀ ans : Answer, ans.addAll evs = ans.addAll evs' := by
  induction more generalizing a c evs with
  | nil => exact ⟨a, evs, h, by simpa using hc, rfl, rfl, fun _ => rfl⟩
  | cons fragment more ih =>
    rw [map_cons, cons_append] at h
    cases h with
    | step _ p h =>
      have hc' : ({ a with parser := p } : ToolAssembly τ).openCall = some c := hc
      have hroute := fun ans => @routeSegment_more _ _ validJson specials _ ans _ hc' index fragment
      rw [(hroute {}).1] at h
      obtain ⟨b, evs', hsteps, hopen, hsup, hcount, hans⟩ := ih rfl h
      refine ⟨b, evs', hsteps, ?_, hsup, hcount, fun ans => ?_⟩
      · rw [hopen, flatten_cons, append_assoc]
      · rw [Answer.addAll_append, (hroute ans).2]
        exact hans ans

theorem Steps.found (hempty : validJson [] = false) {found : List Found}
    (h : Steps validJson specials a (found.flatMap Found.atoms) a' evs) (hready : a.Ready validJson)
    (hindex : ∀ c ∈ a.openCall, c.detectorIndex ∉ found.filterMap Found.index)
    (hnumbered : (found.filterMap Found.index).Nodup)
    (hvalid : ∀ c ∈ found.filterMap Found.nameArgs, validJson c.2) :
    a'.Ready validJson ∧ a'.view (ans.addAll evs) = found.foldl (Shown.found specials)
      (a.view ans) := by
  induction found generalizing a ans evs with
  | nil =>
    cases h with
    | done _ p => exact ⟨⟨hready.numbered, hready.valid⟩, rfl⟩
  | cons x found ih =>
    rw [flatMap_cons] at h
    cases x with
    | text payload =>
      rw [Found.atoms, singleton_append] at h
      cases h with
      | step _ p h =>
        have hready' : Ready validJson { a with parser := p } := ⟨hready.numbered, hready.valid⟩
        obtain ⟨hc, hview⟩ := @Ready.routeSegment_text _ _ _ specials _ ans hready' hempty payload
        rw [Answer.addAll_append, foldl_cons]
        have hnext :=
          @ih _ (ans.addAll
            (routeSegment validJson specials { a with parser := p } (.text payload)).2) _ h
          ⟨(hready'.numbered.routeSegment validJson specials _).1, by simp [hc]⟩ (by simp [hc])
            hnumbered hvalid
        rw [hview] at hnext
        exact hnext
    | call index name first more =>
      rw [Found.atoms, cons_append] at h
      have hindexes : (Found.call index name first more :: found).filterMap Found.index =
          index :: found.filterMap Found.index := rfl
      have hargs : (Found.call index name first more :: found).filterMap Found.nameArgs =
          (some name, first ++ more.flatten) :: found.filterMap Found.nameArgs := rfl
      rw [hindexes, nodup_cons] at hnumbered
      rw [hargs, forall_mem_cons] at hvalid
      -- a call comes with a new index, so it closes the one before
      have hne : ∀ c ∈ a.openCall, c.detectorIndex ≠ index := by
        intro c hc heq
        apply hindex c hc
        rw [hindexes, heq]
        exact mem_cons_self
      cases h with
      | step _ p h =>
        have hready' : Ready validJson { a with parser := p } := ⟨hready.numbered, hready.valid⟩
        obtain ⟨n, hc, hnum, hview⟩ :=
          @Ready.routeSegment_first _ _ _ specials _ ans hready' hempty index name first hne
        obtain ⟨b, evs', hsteps, hopen, hsup, hcount, hans⟩ := Steps.more index hc h
        have hnumber := hnum _ hc
        -- with all of its fragments the new call is whole
        have hb : b.Ready validJson := by
          constructor
          · intro c hmem
            rw [hopen, Option.mem_some_iff] at hmem
            rw [← hmem, hcount]
            exact hnumber
          · intro c hmem
            rw [hopen, Option.mem_some_iff] at hmem
            rw [← hmem]
            exact hvalid.1
        have hnext := @ih _
          (ans.addAll
            (routeSegment validJson specials { a with parser := p }
            (.calls [⟨index, some name, first⟩])).2)
          _ hsteps hb (by
            intro c hmem
            rw [hopen, Option.mem_some_iff] at hmem
            rw [← hmem]
            exact hnumbered.1) hnumbered.2 hvalid.2
        rw [view_some hopen, hsup, hcount, hview] at hnext
        rw [Answer.addAll_append, hans, foldl_cons]
        exact hnext

end ToolAssembly

/-! ### What is shown -/

/-- Calls with their numbers in the answer. -/
def numberCalls (calls : List (Option Text × Text)) : List ToolCallItem :=
  calls.mapIdx fun k c => ⟨k, c.1, c.2⟩

namespace Shown

variable {specials : List Text} {found : List Found}

theorem calls_foldl : (found.foldl (Shown.found specials) {}).ans.calls =
      numberCalls (found.filterMap Found.nameArgs) ∧
    (found.foldl (Shown.found specials) {}).count = (found.filterMap Found.nameArgs).length := by
  induction found using List.reverseRecOn with
  | nil => exact ⟨rfl, rfl⟩
  | append_singleton found x ih =>
    obtain ⟨hcalls, hcount⟩ := ih
    rw [foldl_append, filterMap_append]
    generalize found.foldl (Shown.found specials) {} = s at hcalls hcount ⊢
    cases x with
    | text payload =>
      have hnone : [Found.text payload].filterMap Found.nameArgs = [] := rfl
      rw [hnone, append_nil, ← hcalls, ← hcount]
      show (s.text specials payload).ans.calls = _ ∧ (s.text specials payload).count = _
      unfold Shown.text
      split_ifs
      · exact ⟨rfl, rfl⟩
      · exact ⟨rfl, rfl⟩
    | call index name first more =>
      have hsome : [Found.call index name first more].filterMap Found.nameArgs =
          [(some name, first ++ more.flatten)] := rfl
      rw [hsome, numberCalls, mapIdx_append, length_append]
      constructor
      · show s.ans.calls ++ [⟨(s.count : ℤ), some name, first ++ more.flatten⟩] = _
        rw [hcalls, hcount]
        simp [numberCalls]
      · show s.count + 1 = _
        rw [hcount]
        rfl

/-- A stretch of content is what is left of its pieces, but for whitespace in front. -/
def LeftOf (specials : List Text) (run : Text) (pieces : List Text) : Prop :=
  ∃ w, Blank w ∧ (pieces.map (stripSpecialTokens · specials)).flatten = w ++ run

theorem runs_foldl : List.Forall₂ (LeftOf specials) (found.foldl (Shown.found specials) {}).ans.runs
      (Found.runPieces found).1 ∧
    LeftOf specials (found.foldl (Shown.found specials) {}).ans.run (Found.runPieces found).2 ∧
    ((found.foldl (Shown.found specials) {}).suppress →
      (found.foldl (Shown.found specials) {}).ans.run = []) := by
  induction found using List.reverseRecOn with
  | nil => exact ⟨.nil, ⟨[], rfl, rfl⟩, fun h => absurd h (by simp)⟩
  | append_singleton found x ih =>
    obtain ⟨hruns, hrun, hsup⟩ := ih
    rw [Found.runPieces, foldl_append, foldl_append]
    rw [Found.runPieces] at hruns hrun
    generalize found.foldl (Shown.found specials) {} = s at hruns hrun hsup ⊢
    generalize found.foldl _ _ = r at hruns hrun ⊢
    cases x with
    | text payload =>
      obtain ⟨w, hw, hrun⟩ := hrun
      have hflatten : ((r.2 ++ [payload]).map (stripSpecialTokens · specials)).flatten =
          w ++ s.ans.run ++ stripSpecialTokens payload specials := by
        rw [map_append, flatten_append, hrun]
        simp
      show List.Forall₂ _ (s.text specials payload).ans.runs r.1 ∧
        LeftOf specials (s.text specials payload).ans.run (r.2 ++ [payload]) ∧
        ((s.text specials payload).suppress → (s.text specials payload).ans.run = [])
      unfold Shown.text
      split_ifs with hskip
      · refine ⟨hruns, ?_, hsup⟩
        rcases hskip with hnil | ⟨hblank, hs⟩
        · exact ⟨w, hw, by rw [hflatten, hnil, append_nil]⟩
        · -- whitespace that is swallowed
          have hempty := hsup hs
          rw [hempty] at hflatten ⊢
          refine ⟨w ++ stripSpecialTokens payload specials, hw.append hblank, ?_⟩
          rw [hflatten, append_nil, append_nil]
      · refine ⟨hruns, ⟨w, hw, ?_⟩, ?_⟩
        · rw [hflatten, append_assoc]
          rfl
        · intro hs
          rw [Bool.and_eq_true] at hs
          exact absurd (Or.inr ⟨hs.2, hs.1⟩) hskip
    | call index name first more =>
      refine ⟨?_, ⟨[], rfl, rfl⟩, fun _ => rfl⟩
      exact rel_append hruns (.cons hrun .nil)

end Shown

end FreeToken
