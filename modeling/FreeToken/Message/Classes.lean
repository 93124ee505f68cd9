import FreeToken.KvCache.RadixTreeNode
import FreeToken.Message.Utils

/-!
# The message classes

What `globals()` of the three message modules has for the decoder: each class with its fields, and
their defaults.
-/

namespace FreeToken

/-- The `finish_reason` of a reply. -/
inductive FinishReason where
  | stop
  | length
deriving DecidableEq, Repr

/-- `DetokenizeMsg`, without the occupancy of the pools. -/
structure DetokenizeMsg where
  uid : ℕ
  nextToken : Token
  finished : Bool
  finishReason : Option FinishReason := none
  matchedStop : Option Text := none
  stopStrs : Option (List Text) := none
deriving DecidableEq, Repr

namespace MessageClass

def required (name : String) : Text × Option Value := (name.toList, none)

def optional (name : String) (default : Value) : Text × Option Value := (name.toList, some default)

def samplingParams : MessageClass :=
  ⟨"SamplingParams".toList,
    [optional "temperature" (.float 0), optional "top_k" (.int (-1)), optional "top_p" (.float 0x3FF0000000000000),
      optional "ignore_eos" (.bool false), optional "max_tokens" (.int 1024), optional "stop_strs" (.list [])]⟩

/-! ### `message.backend` -/

def baseBackendMsg : MessageClass := ⟨"BaseBackendMsg".toList, []⟩

def batchBackendMsg : MessageClass := ⟨"BatchBackendMsg".toList, [required "data"]⟩

def exitMsg : MessageClass := ⟨"ExitMsg".toList, []⟩

def mmItem : MessageClass :=
  ⟨"MMItem".toList,
    [required "modality", required "hash", required "pad_value", required "offsets", optional "feature" .none,
      optional "precomputed_embeddings" .none, optional "model_specific_data" (.dict [])]⟩

def userMsg : MessageClass :=
  ⟨"UserMsg".toList,
    [required "uid", required "input_ids", required "sampling_params", optional "mm_items" .none,
      optional "mrope_positions" .none, optional "mrope_delta" (.int 0)]⟩

def abortBackendMsg : MessageClass := ⟨"AbortBackendMsg".toList, [required "uid"]⟩

def cacheRebuildBackendMsg : MessageClass :=
  ⟨"CacheRebuildBackendMsg".toList,
    [required "request_id", optional "moe_cache_size" .none, optional "num_pages" .none,
      optional "num_mamba_slots" .none, optional "num_swa_pages" .none, optional "mode" (.str "if_idle".toList)]⟩

/-! ### `message.tokenizer` -/

def baseTokenizerMsg : MessageClass := ⟨"BaseTokenizerMsg".toList, []⟩

def batchTokenizerMsg : MessageClass := ⟨"BatchTokenizerMsg".toList, [required "data"]⟩

/-- The occupancy of the pools and the memory of the engine, which two messages report. -/
def usage : List (Text × Option Value) :=
  [optional "kv_used_pages" (.int 0), optional "kv_total_pages" (.int 0), optional "mamba_used_slots" (.int 0),
    optional "mamba_total_slots" (.int 0), optional "swa_used_tokens" (.int 0), optional "swa_total_tokens" (.int 0),
    optional "gpu_mem_bytes" (.int 0)]

def detokenizeMsg : MessageClass :=
  ⟨"DetokenizeMsg".toList,
    [required "uid", required "next_token", required "finished", optional "finish_reason" .none,
      optional "matched_stop" .none, optional "stop_strs" .none] ++ usage⟩

def promptAdmittedMsg : MessageClass :=
  ⟨"PromptAdmittedMsg".toList, [required "uid", required "prompt_tokens", optional "cached_tokens" (.int 0)]⟩

def tokenizeMsg : MessageClass :=
  ⟨"TokenizeMsg".toList,
    [required "uid", required "text", required "sampling_params", optional "chat_template_kwargs" .none,
      optional "tools" .none, optional "images" .none]⟩

def abortMsg : MessageClass := ⟨"AbortMsg".toList, [required "uid"]⟩

def cacheRebuildMsg : MessageClass := ⟨"CacheRebuildMsg".toList, cacheRebuildBackendMsg.fields⟩

/-- The fields of the result of a rebuild, which two messages have. -/
def rebuildResult : List (Text × Option Value) :=
  [required "request_id", required "status", optional "moe_cache_size" (.int 0), optional "num_pages" (.int 0),
    optional "mamba_slots" (.int 0), optional "num_swa_pages" (.int 0), optional "error" .none]

def cacheRebuildResultMsg : MessageClass := ⟨"CacheRebuildResultMsg".toList, rebuildResult⟩

def errorReplyMsg : MessageClass :=
  ⟨"ErrorReplyMsg".toList, [required "uid", required "error", optional "code" .none]⟩

/-! ### `message.frontend` -/

def baseFrontendMsg : MessageClass := ⟨"BaseFrontendMsg".toList, []⟩

def batchFrontendMsg : MessageClass := ⟨"BatchFrontendMsg".toList, [required "data"]⟩

def userReply : MessageClass :=
  ⟨"UserReply".toList,
    [required "uid", required "incremental_output", required "finished", optional "prompt_tokens_delta" (.int 0),
      optional "completion_tokens_delta" (.int 0), optional "cached_tokens" (.int 0)] ++ usage ++
    [optional "error" .none, optional "error_code" .none, optional "finish_reason" .none,
      optional "matched_stop" .none]⟩

def cacheRebuildReply : MessageClass := ⟨"CacheRebuildReply".toList, rebuildResult⟩

end MessageClass

open MessageClass

def backendClasses : ClassMap :=
  [samplingParams, baseBackendMsg, batchBackendMsg, exitMsg, mmItem, userMsg, abortBackendMsg,
    cacheRebuildBackendMsg]

/-- The messages to the tokenizer workers. -/
def tokenizerClasses : ClassMap :=
  [samplingParams, baseTokenizerMsg, batchTokenizerMsg, detokenizeMsg, promptAdmittedMsg,
    tokenizeMsg, abortMsg, cacheRebuildMsg, cacheRebuildResultMsg, errorReplyMsg]

def frontendClasses : ClassMap := [baseFrontendMsg, batchFrontendMsg, userReply, cacheRebuildReply]

end FreeToken
