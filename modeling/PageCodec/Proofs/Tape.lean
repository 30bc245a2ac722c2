import PageCodec.Page.Layout

/-!
# Streams in their cells

A stream is kept in cells of a fixed number.  Its symbols take the cells in front, and behind them
lies whatever was left there: blanks at first, and later the zeros with which the stream was filled
up.  A new symbol is written over the next cell.

* `Tape` — a stream with its cells.
* `Tape.push`, `Tape.write` — more symbols.
* `Tape.fill?` — the stream filled up to whole groups in its own cells.
* `Tape.SameButStale` — tapes that differ behind their symbols at most; they are read alike
  (`Tape.SameButStale.fill?`), and filling up leaves a tape alike (`Tape.sameButStale_of_fill?`).
-/

namespace PageCodec

/-- A stream and the cells it is kept in. -/
structure Tape (α : Type) where
  /-- The symbols of the stream, in the cells in front. -/
  symbols : List α
  /-- What lies in the cells behind them. -/
  stale : List α

namespace Tape

variable {α : Type} {t u : Tape α} {blank : α} {group : Nat}

/-- A stream without symbols in `room` cells. -/
def new (room : Nat) (blank : α) : Tape α := ⟨[], List.replicate room blank⟩

/-- All cells. -/
def cells (t : Tape α) : List α := t.symbols ++ t.stale

/-- The tape with one more symbol, which is written over what lies in the next cell. -/
def push (a : α) (t : Tape α) : Tape α := ⟨t.symbols ++ [a], t.stale.drop 1⟩

/-- The tape with other symbols, written over the cells in front. -/
def write (run : List α) (t : Tape α) : Tape α := ⟨run, t.cells.drop run.length⟩

/-- The tape with blanks in the next `n` cells. -/
def wipe (n : Nat) (blank : α) (t : Tape α) : Tape α :=
  ⟨t.symbols, List.replicate n blank ++ t.stale.drop n⟩

/-- Blanks the cells behind the symbols up to whole groups and reads the symbols together with these
cells.  There is nothing to read where the last group ends behind the last cell. -/
def fill? (group : Nat) (blank : α) (t : Tape α) : Option (List α × Tape α) :=
  let stop := Layout.roundUp t.symbols.length group
  let filled := t.wipe (stop - t.symbols.length) blank
  if stop ≤ t.cells.length then some (filled.cells.take stop, filled) else none

@[simp]
theorem length_cells (t : Tape α) : t.cells.length = t.symbols.length + t.stale.length :=
  List.length_append

@[simp]
theorem length_cells_new (room : Nat) (blank : α) : (new room blank).cells.length = room := by
  simp [new]

@[simp]
theorem symbols_push (a : α) (t : Tape α) : (t.push a).symbols = t.symbols ++ [a] := rfl

@[simp]
theorem symbols_write (run : List α) (t : Tape α) : (t.write run).symbols = run := rfl

@[simp]
theorem write_symbols (t : Tape α) : t.write t.symbols = t := by
  simp [write, cells]

@[simp]
theorem write_concat (t : Tape α) (a : α) : t.write (t.symbols ++ [a]) = t.push a := by
  simp [write, push, cells, List.drop_append]

theorem length_cells_write {room : Nat} {run : List α} (h : t.cells.length = room)
    (hrun : run.length ≤ room) : (t.write run).cells.length = room := by
  rw [length_cells, symbols_write, write, List.length_drop, h, Nat.add_sub_cancel' hrun]

theorem length_cells_push {room : Nat} (h : t.cells.length = room) (hlt : t.symbols.length < room)
    (a : α) : (t.push a).cells.length = room := by
  rw [← write_concat]
  exact length_cells_write h (by rwa [List.length_append, List.length_singleton, Nat.succ_le_iff])

theorem take_cells_wipe (t : Tape α) (n : Nat) (blank : α) :
    (t.wipe n blank).cells.take (t.symbols.length + n) = t.symbols ++ List.replicate n blank := by
  rw [wipe, cells, ← List.append_assoc]
  exact List.take_left' (by rw [List.length_append, List.length_replicate])

/-- What is read are the symbols and blanks behind them. -/
theorem fill?_eq (hg : 0 < group) (t : Tape α) (blank : α) : t.fill? group blank =
    let more := Layout.roundUp t.symbols.length group - t.symbols.length
    if more ≤ t.stale.length then
      some (t.symbols ++ List.replicate more blank, t.wipe more blank)
    else none := by
  have hle := Layout.le_roundUp hg t.symbols.length
  have hroom : Layout.roundUp t.symbols.length group ≤ t.cells.length
      ↔ Layout.roundUp t.symbols.length group - t.symbols.length ≤ t.stale.length := by
    rw [length_cells]
    omega
  simp only [fill?, hroom, ← take_cells_wipe, Nat.add_sub_cancel' hle]

/-! ## Tapes that differ behind their symbols -/

/-- The tapes have the same symbols and as many cells. -/
structure SameButStale (t u : Tape α) : Prop where
  /-- The symbols are the same. -/
  symbols : t.symbols = u.symbols
  /-- There are as many cells behind them. -/
  length : t.stale.length = u.stale.length

theorem SameButStale.refl (t : Tape α) : t.SameButStale t := ⟨rfl, rfl⟩

theorem SameButStale.write (h : t.SameButStale u) (run : List α) :
    (t.write run).SameButStale (u.write run) := by
  refine ⟨rfl, ?_⟩
  simp [Tape.write, h.symbols, h.length]

/-- What is read does not depend on what lies behind the symbols. -/
theorem SameButStale.fill? (h : t.SameButStale u) (hg : 0 < group) (blank : α) :
    Option.Rel (fun a b => a.1 = b.1 ∧ a.2.SameButStale b.2) (t.fill? group blank)
      (u.fill? group blank) := by
  rw [fill?_eq hg, fill?_eq hg, h.symbols, h.length]
  dsimp only
  split
  · refine .some ⟨rfl, h.symbols, ?_⟩
    simp [wipe, h.length]
  · exact .none

/-- Filling up changes nothing but the cells behind the symbols. -/
theorem sameButStale_of_fill? {run : List α} (hg : 0 < group)
    (h : t.fill? group blank = some (run, u)) : t.SameButStale u := by
  rw [fill?_eq hg] at h
  dsimp only at h
  split at h
  · cases h
    refine ⟨rfl, ?_⟩
    simp only [wipe, List.length_append, List.length_replicate, List.length_drop]
    omega
  · cases h

end Tape

end PageCodec
