import FreeToken.Message.Classes
import Mathlib.Data.List.AList

/-!
# Incremental detokenization

The text of a request is sent while its tokens arrive.  Of each new token, only a window of ids is
decoded: the ids that have not been read, behind a few that have.
-/

namespace FreeToken

def isChineseChar (c : Char) : Bool :=
  let cp := c.toNat
  (0x4E00 ≤ cp && cp ≤ 0x9FFF) || (0x3400 ≤ cp && cp ≤ 0x4DBF) || (0x20000 ≤ cp && cp ≤ 0x2A6DF) ||
    (0x2A700 ≤ cp && cp ≤ 0x2B73F) || (0x2B740 ≤ cp && cp ≤ 0x2B81F) ||
      (0x2B820 ≤ cp && cp ≤ 0x2CEAF) ||
    (0xF900 ≤ cp && cp ≤ 0xFAFF) || (0x2F800 ≤ cp && cp ≤ 0x2FA1F)

/-- `text[: text.rfind(" ") + 1]`. -/
def untilLastSpace (text : Text) : Text := (text.reverse.dropWhile (· ≠ ' ')).reverse

def findPrintableText (text : Text) : Text :=
  match text.reverse with
  | [] => untilLastSpace text
  | c :: rest =>
    if c = '\n' then text
    else if isChineseChar c then text
    else
      match rest with
      | c' :: _ => if isChineseChar c' then text.dropLast else untilLastSpace text
      | [] => untilLastSpace text

def stopPrefixHoldback (text : Text) (stopStrs : List Text) : ℕ :=
  stopStrs.foldl (fun hold stop => max hold (Text.longestPartial text 0 stop)) 0

structure DecodeStatus where
  decodedIds : List Token := []
  decodedStr : Text := []
  readOffset : ℕ := 0
  surrOffset : ℕ := 0
  sentOffset : ℕ := 0
deriving DecidableEq, Repr

namespace DecodeStatus

variable (decode : List Token → Text) (eosTokenIds : List Token) (s : DecodeStatus)
  (msg : DetokenizeMsg)

/-- Add the token of a message, unless it is an EOS at the end. -/
def push : DecodeStatus :=
  if msg.finished ∧ msg.nextToken ∈ eosTokenIds then s
  else { s with decodedIds := s.decodedIds ++ [msg.nextToken] }

/-- `decoded_ids[surr_offset:]`. -/
def readIds : List Token := s.decodedIds.drop s.surrOffset

/-- `decoded_ids[surr_offset:read_offset]`. -/
def surrIds : List Token := (s.decodedIds.take s.readOffset).drop s.surrOffset

/-- Take the new text of a window, if it is complete; the text that may be shown. -/
def read (readStr surrStr : Text) : DecodeStatus × Text :=
  let newText := readStr.drop surrStr.length
  if newText ≠ [] ∧ newText.getLast? ≠ some '\uFFFD' then
    let outputStr := s.decodedStr ++ newText
    ({ s with
        decodedStr := outputStr
        surrOffset := s.readOffset
        readOffset := s.decodedIds.length }, outputStr)
  else (s, s.decodedStr ++ findPrintableText newText)

def emitEnd (outputStr : Text) : ℕ :=
  if msg.finished then
    match msg.matchedStop with
    | some stop => if stop = [] then outputStr.length else (Text.find stop outputStr).getD
      outputStr.length
    | none => outputStr.length
  else
    match msg.stopStrs with
    | some stopStrs => outputStr.length - stopPrefixHoldback outputStr stopStrs
    | none => outputStr.length

/-- Send the text up to there, behind what has been sent. -/
def send (outputStr : Text) : DecodeStatus × Text :=
  let emitEnd := emitEnd msg outputStr
  ({ s with sentOffset := max s.sentOffset emitEnd },
    if s.sentOffset < emitEnd then (outputStr.take emitEnd).drop s.sentOffset else [])

/-- A message for a request: its new status, and the text that is sent. -/
def advance : DecodeStatus × Text :=
  let s := s.push eosTokenIds msg
  let (s, outputStr) := s.read (decode s.readIds) (decode s.surrIds)
  s.send msg outputStr

end DecodeStatus

abbrev DecodeMap := AList fun _ : ℕ => DecodeStatus

namespace DetokenizeManager

variable (decode : List Token → Text) (eosTokenIds : List Token)

/-- The status of a request, a new one if it is not in the map. -/
def status (m : DecodeMap) (uid : ℕ) : DecodeStatus := (m.lookup uid).getD {}

/-- The first loop of `detokenize`: the tokens are added, and the windows are collected. -/
def collect : DecodeMap → List DetokenizeMsg → DecodeMap × List (List Token × List Token)
  | m, [] => (m, [])
  | m, msg :: msgs =>
    let s := (status m msg.uid).push eosTokenIds msg
    let (m, windows) := collect (m.insert msg.uid s) msgs
    (m, (s.readIds, s.surrIds) :: windows)

/-- The second loop of `detokenize`.  A request that is not in the map is an error. -/
def emit : DecodeMap → List (DetokenizeMsg × Text × Text) → Option (DecodeMap × List Text)
  | m, [] => some (m, [])
  | m, (msg, readStr, surrStr) :: rest => do
    let s ← m.lookup msg.uid
    let (s, outputStr) := s.read readStr surrStr
    let (s, incrementalOutput) := s.send msg outputStr
    let (m, outs) ← emit (if msg.finished then m.erase msg.uid else m.insert msg.uid s) rest
    some (m, incrementalOutput :: outs)

def detokenize (m : DecodeMap) (msgs : List DetokenizeMsg) : Option (DecodeMap × List Text) :=
  let (m, windows) := collect eosTokenIds m msgs
  emit m (msgs.zip (windows.map fun w => (decode w.1, decode w.2)))

/-- The replies of a worker to batch after batch of messages: the text that each request gets. -/
def replies (m : DecodeMap) : List (List DetokenizeMsg) → Option (DecodeMap × List (ℕ × Text))
  | [] => some (m, [])
  | msgs :: batches => do
    let (m, outs) ← detokenize decode eosTokenIds m msgs
    let (m, rest) ← replies m batches
    some (m, (msgs.map (·.uid)).zip outs ++ rest)

end DetokenizeManager

end FreeToken
