import FreeToken.Server.InvokeParamStream
import FreeToken.Utils.Equiv.Text

/-!
# The machine of invoke and parameter blocks

No increment makes up text (`parse_sublist`), its loop ends by itself (`loop_fuel`), and outside of
a block text passes through (`parse_idle`).
-/

namespace FreeToken.InvokeParamStream

open List Option

variable [JsonLib] {g : InvokeGrammar} {table : ToolTable} {s s' : InvokeParamStream}
  {res res' : StreamingParseResult}

/-! ### What the helpers leave alone -/

omit [JsonLib] in
@[simp]
theorem emit_buffer (fragment : Text) : (s.emit res fragment).1.buffer = s.buffer := by
  unfold emit
  split_ifs <;> rfl

omit [JsonLib] in
@[simp]
theorem emit_normalText (fragment : Text) :
    (s.emit res fragment).2.normalText = res.normalText := by
  unfold emit
  split_ifs <;> rfl

omit [JsonLib] in
@[simp]
theorem holdEnd_buffer_suffix (a b : Text) : (s.holdEnd a b).buffer <:+ s.buffer :=
    drop_suffix _ s.buffer

@[simp]
theorem closeInvoke_normalText : (s.closeInvoke res).2.normalText = res.normalText := by
  simp [closeInvoke]

omit [JsonLib] in
@[simp]
theorem openParam_buffer (name : Text) : (s.openParam g res name).1.buffer = s.buffer := by
  unfold openParam
  dsimp only
  split_ifs <;> simp

omit [JsonLib] in
@[simp]
theorem openParam_normalText (name : Text) :
    (s.openParam g res name).2.normalText = res.normalText := by
  unfold openParam
  dsimp only
  split_ifs <;> simp

/-! ### One turn -/

/-- The tokens that a turn goes on behind have characters. -/
structure GoesForward (g : InvokeGrammar) : Prop where
  outerOpen : g.outerOpen ≠ []
  invokeOpen : ∀ {buf i name stop}, g.invokeOpenRe buf i = some (name, stop) → 0 < stop
  invokeClose : g.invokeClose ≠ []
  paramOpen : ∀ {buf i name stop}, g.paramOpenRe buf i = some (name, stop) → 0 < stop
  paramClose : g.paramClose ≠ []

omit [JsonLib] in
theorem qwen3CoderGrammar_goesForward : GoesForward qwen3CoderGrammar := by
  have hsearch : ∀ {opening buf : Text} {i : ℕ} {name : Text} {stop : ℕ},
      searchTag opening buf i = some (name, stop) → 0 < stop := by
    intro opening buf i name stop h
    unfold searchTag at h
    dsimp only at h
    split_ifs at h
    obtain ⟨-, rfl⟩ := Prod.mk.inj (Option.some.inj h)
    omega
  exact ⟨by decide, hsearch, by decide, hsearch, by decide⟩

/-- What a turn does to the buffer: it takes text from its start, adds some of it, and leaves less
behind if another turn follows. -/
structure Cuts (s : InvokeParamStream) (res : StreamingParseResult) (run : Run) : Prop where
  text : ∃ text, run.res.normalText = res.normalText ++ text ∧
    (text ++ run.state.buffer).Sublist s.buffer
  shorter : run.goesOn = true → run.state.buffer.length < s.buffer.length

omit [JsonLib] in
private theorem cuts_stop {run : Run} (htext : run.res.normalText = res.normalText)
    (hbuf : run.state.buffer <:+ s.buffer) (hstop : run.goesOn = false) : Cuts s res run where
  text := ⟨[], by rw [htext, append_nil], hbuf.sublist⟩
  shorter hon := absurd (hstop.symm.trans hon) Bool.false_ne_true

omit [JsonLib] in
private theorem cuts_drop (hs : s.buffer ≠ []) {run : Run}
    (htext : run.res.normalText = res.normalText) {n : ℕ}
    (hbuf : run.state.buffer = s.buffer.drop n) (hn : 0 < n) : Cuts s res run where
  text := ⟨[], by rw [htext, append_nil], by rw [hbuf]; exact drop_sublist n s.buffer⟩
  shorter _ := by
    have hpos := length_pos_iff.mpr hs
    rw [hbuf, length_drop]
    omega

omit [JsonLib] in
private theorem add_length_pos {tok : Text} (htok : tok ≠ []) (n : ℕ) : 0 < n + tok.length :=
  Nat.add_pos_right n (length_pos_iff.mpr htok)

section Turn

variable (hg : GoesForward g) (hs : s.buffer ≠ [])
include hs

omit [JsonLib] in
include hg in
theorem stepIdle_cuts : Cuts s res (s.stepIdle g res) := by
  unfold stepIdle
  split_ifs
  · exact cuts_stop rfl suffix_rfl rfl
  · split
    · refine ⟨⟨_, rfl, ?_⟩, fun hon => absurd hon Bool.false_ne_true⟩
      dsimp only
      rw [length_take, min_eq_left (Nat.sub_le _ _), take_append_drop]
    · rename_i pos _
      refine ⟨⟨_, rfl, ?_⟩, fun _ => ?_⟩
      · rw [take_append_drop]
      · have hpos := length_pos_iff.mpr hs
        show (s.buffer.drop (pos + 1)).length < s.buffer.length
        rw [length_drop]
        omega
    · exact cuts_drop hs rfl rfl (length_pos_iff.mpr hg.outerOpen)

omit [JsonLib] in
theorem openInvoke_cuts (name : Text) {stop : ℕ} (hstop : 0 < stop) :
    Cuts s res (s.openInvoke g table res name stop) := by
  unfold openInvoke
  dsimp only
  split_ifs <;> exact cuts_drop hs rfl rfl hstop

omit [JsonLib] in
include hg in
theorem stepBlock_cuts : Cuts s res (s.stepBlock g table res) := by
  unfold stepBlock
  dsimp only
  split
  · rename_i close hclose
    have houter : g.outerClose ≠ [] := by
      rintro hnil
      rw [if_pos hnil] at hclose
      cases hclose
    exact cuts_drop hs rfl rfl (add_length_pos houter close)
  · split
    · split
      · exact cuts_stop rfl suffix_rfl rfl
      · rename_i hre
        exact openInvoke_cuts hs _ (hg.invokeOpen hre)
    · exact cuts_stop rfl (holdEnd_buffer_suffix _ _) rfl

include hg in
theorem stepInvoke_cuts (skip : Bool) : Cuts s res (s.stepInvoke g res skip) := by
  unfold stepInvoke
  dsimp only
  split
  · apply cuts_drop hs _ rfl (add_length_pos hg.invokeClose _)
    cases skip <;> simp
  · split
    · split
      · exact cuts_stop rfl suffix_rfl rfl
      · rename_i hre
        split_ifs
        · exact cuts_drop hs rfl rfl (hg.paramOpen hre)
        · apply cuts_drop hs (openParam_normalText _) (openParam_buffer _) (hg.paramOpen hre)
    · exact cuts_stop rfl (holdEnd_buffer_suffix _ _) rfl

include hg in
theorem stepStr_cuts : Cuts s res (s.stepStr g res) := by
  unfold stepStr
  split
  · dsimp only
    split_ifs
    · exact cuts_stop rfl suffix_rfl rfl
    · exact cuts_stop (emit_normalText _) (drop_suffix _ s.buffer) rfl
  · exact cuts_drop hs (emit_normalText _) rfl (add_length_pos hg.paramClose _)

omit [JsonLib] hs in
theorem trimLeading_suffix (text : Text) : trimLeading g text <:+ text := by
  unfold trimLeading
  split_ifs
  · split
    · split_ifs
      · exact suffix_cons _ _
      · exact suffix_rfl
    · exact suffix_rfl
  · exact dropWhile_suffix _

include hg in
theorem stepPstr_cuts : Cuts s res (s.stepPstr g res) := by
  unfold stepPstr
  dsimp only
  split_ifs with hlead htrim
  · exact stepStr_cuts hg hs
  · have hsuf := @trimLeading_suffix g s.buffer
    refine ⟨⟨[], (append_nil _).symm, hsuf.sublist⟩, fun _ => ?_⟩
    apply lt_of_le_of_ne hsuf.length_le
    intro hlen
    exact htrim (hsuf.eq_of_length hlen)
  · have hcuts :
      Cuts { s with leadTrimmed := true } res (stepStr g { s with leadTrimmed := true } res) :=
      stepStr_cuts hg hs
    exact ⟨hcuts.text, hcuts.shorter⟩

include hg in
theorem stepPbuf_cuts {run : Run} (h : s.stepPbuf g res = some run) : Cuts s res run := by
  unfold stepPbuf at h
  split at h
  · obtain rfl := Option.some.inj h
    exact cuts_stop rfl suffix_rfl rfl
  · obtain ⟨converted, -, hrun⟩ := bind_eq_some_iff.mp h
    simp only [Option.pure_def, Option.some.injEq] at hrun
    rw [← hrun]
    exact cuts_drop hs (emit_normalText _) rfl (add_length_pos hg.paramClose _)

omit [JsonLib] in
include hg in
theorem stepPskip_cuts : Cuts s res (s.stepPskip g res) := by
  unfold stepPskip
  split
  · exact cuts_stop rfl suffix_rfl rfl
  · exact cuts_drop hs rfl rfl (add_length_pos hg.paramClose _)

include hg in
theorem step_cuts {run : Run} (h : s.step g table res = some run) : Cuts s res run := by
  unfold step at h
  cases hmode : s.mode with
  | pbuf =>
    rw [hmode] at h
    exact stepPbuf_cuts hg hs h
  | _ =>
    rw [hmode] at h
    obtain rfl := Option.some.inj h
    first
      | exact stepIdle_cuts hg hs
      | exact stepBlock_cuts hg hs
      | exact stepInvoke_cuts hg hs _
      | exact stepPstr_cuts hg hs
      | exact stepPskip_cuts hg hs

end Turn

/-! ### The loop -/

theorem loop_sublist (hg : GoesForward g) {fuel : ℕ}
    (h : loop g table fuel s res = some (s', res')) :
    ∃ text, res'.normalText = res.normalText ++ text ∧ (text ++ s'.buffer).Sublist s.buffer := by
  induction fuel generalizing s res with
  | zero =>
    obtain ⟨rfl, rfl⟩ := Prod.mk.inj (Option.some.inj h)
    exact ⟨[], (append_nil _).symm, List.Sublist.refl _⟩
  | succ fuel ih =>
    rw [loop] at h
    split_ifs at h with hnil
    · obtain ⟨rfl, rfl⟩ := Prod.mk.inj (Option.some.inj h)
      exact ⟨[], (append_nil _).symm, List.Sublist.refl _⟩
    · obtain ⟨run, hrun, h⟩ := bind_eq_some_iff.mp h
      obtain ⟨text, htext, hsub⟩ := (step_cuts hg hnil hrun).text
      split_ifs at h
      · obtain ⟨more, hmore, hsub'⟩ := ih h
        refine ⟨text ++ more, ?_, ?_⟩
        · rw [hmore, htext, append_assoc]
        · rw [append_assoc]
          exact ((List.Sublist.refl text).append hsub').trans hsub
      · obtain ⟨rfl, rfl⟩ := Prod.mk.inj (Option.some.inj h)
        exact ⟨text, htext, hsub⟩

/-- No increment makes up text. -/
theorem parse_sublist (hg : GoesForward g) {newText : Text}
    (h : s.parseStreamingIncrement g table newText = some (s', res)) :
    (res.normalText ++ s'.buffer).Sublist (s.buffer ++ newText) := by
  obtain ⟨text, htext, hsub⟩ := loop_sublist hg h
  rw [htext]
  exact hsub

/-- Outside of a block, text without an opener passes through, but for an end that may become one.
-/
theorem parse_idle (g : InvokeGrammar) (table : ToolTable) (hmode : s.mode = .idle) {newText : Text}
    (hopen : ¬g.outerOpen <:+: s.buffer ++ newText) : ∃ text buffer,
      s.parseStreamingIncrement g table newText =
        some ({ s with buffer := buffer }, { normalText := text }) ∧
        text ++ buffer = s.buffer ++ newText := by
  unfold parseStreamingIncrement
  rw [loop]
  split_ifs with hnil
  · dsimp only at hnil
    exact ⟨[], s.buffer ++ newText, rfl, rfl⟩
  · simp only [step, hmode, stepIdle, Text.find_eq_none.mpr hopen, bind_eq_bind, bind_some,
      ne_eq, not_true_eq_false, if_false, Bool.false_eq_true, Option.pure_def]
    refine ⟨_, _, rfl, ?_⟩
    rw [length_take, min_eq_left (Nat.sub_le _ _), nil_append, take_append_drop]

end FreeToken.InvokeParamStream
