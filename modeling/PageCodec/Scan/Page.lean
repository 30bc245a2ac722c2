import PageCodec.Buffer.Basic
import PageCodec.Scan.Streams
import PageCodec.Scan.Tally

/-!
# Scanning a page

A scan goes over the words of a page once, front to back.  Each word is compared with what the
dictionary remembers at its slot and gets a tag; what else is needed to recover the word goes to
the other streams, and words that the dictionary could not foresee go to a buffer of full words as
they are.  Partial matches and misses are then remembered in place of the old word.

This is `model_page` of `wkdm::compression::model`.

* `Workspace` — the dictionary, the streams and the full words that a scan works on.
* `Scan.step` — what becomes of one word.  Its tag is written down last, so a scan that stops for
  want of room for the tag has already done the rest.
* `Scan.page` — a whole page.  A scan that stops keeps what it had done: the dictionary, the
  streams and the full words stay as they were at the stop.
-/

namespace PageCodec

/-- What a scan reads and writes. -/
structure Workspace where
  /-- The words remembered so far. -/
  dictionary : Dictionary
  /-- The symbols collected so far. -/
  streams : Streams
  /-- Where missed words go. -/
  fullWords : Buffer

namespace Scan

/-! ## One word -/

/-- A scan at work. -/
structure Progress where
  /-- The words remembered so far. -/
  dictionary : Dictionary
  /-- The symbols collected so far. -/
  streams : Streams
  /-- The words missed in this scan so far. -/
  missed : Array Word

/-- Adds a symbol to the streams, or stops if there is no room for it. -/
def emit (push : Streams → Option Streams) : EStateM Stop Progress Unit := fun p =>
  match push p.streams with
  | some streams => .ok () { p with streams }
  | none => .error .outOfRange p

/-- Remembers a word at a slot. -/
def remember (slot : Slot) (w : Word) : EStateM Stop Progress Unit := fun p =>
  .ok () { p with dictionary := p.dictionary.set slot w }

/-- Puts a word among the full words, of which there can be `room`. -/
def keepWhole (room : Nat) (w : Word) : EStateM Stop Progress Unit := fun p =>
  if p.missed.size < room then .ok () { p with missed := p.missed.push w }
  else .error .outOfRange p

/-- What the tag of a word asks for besides the tag itself. -/
def follow (room : Nat) (slot : Slot) (w : Word) : Tag → EStateM Stop Progress Unit
  | .exactMatch => emit (·.pushPosition? slot)
  | .zero => pure ()
  | .partialMatch => do
    emit (·.pushPosition? slot)
    emit (·.pushPattern? w.pattern)
    remember slot w
  | .miss => do
    keepWhole room w
    remember slot w

/-- Scans one word and returns its tag, which is the last thing to be written down. -/
def step (room : Nat) (w : Word) : EStateM Stop Progress Tag := do
  let (slot, cached) := (← get).dictionary.probe w
  let tag := Tag.classify cached w
  follow room slot w tag
  emit (·.pushTag? tag)
  return tag

/-! ## A page -/

/-- Scans words one after another, with the tally of the words before them. -/
def steps (room : Nat) : Tally → List Word → EStateM Stop Progress Tally
  | tally, [] => pure tally
  | tally, w :: ws => do
    let tag ← step room w
    steps room (tally.record tag) ws

/-- The workspace that a scan leaves: missed words are written over the front of the full words. -/
def Progress.leave (p : Progress) (fullWords : Buffer) : Workspace :=
  ⟨p.dictionary, p.streams, fullWords.overlay p.missed.toList⟩

/-- Scans a page and returns its tally (`model_page`).  The length of the page is looked at before
the room for full words. -/
def page (words : List Word) : EStateM Stop Workspace Tally := fun ws =>
  if words.length ≠ Layout.pageWords then
    .error (.rejected (.pageLength Layout.pageWords words.length)) ws
  else if ws.fullWords.length < Layout.pageWords then
    .error (.rejected (.capacity Layout.pageWords ws.fullWords.length)) ws
  else
    match steps ws.fullWords.length .empty words ⟨ws.dictionary, ws.streams, #[]⟩ with
    | .ok tally p => .ok tally (p.leave ws.fullWords)
    | .error e p => .error e (p.leave ws.fullWords)

end Scan

end PageCodec
