import Mathlib

/-!
# Segmented streams

A stream socket hands its symbols over in pieces of its own choosing, and takes them in
portions of its own choosing. A call may also be interrupted or fail. What arrives and
how the socket answers are lists chosen by the environment, so a loop around such calls
is a recursion over them, and a statement for every list is one for every segmentation.
-/

namespace Stream

universe u

/-- What the next receiving call can meet. An empty piece shows to no call. -/
inductive Arrival (α : Type u) where
  | piece (symbols : List α)
  | interrupted
  | failed

variable {α : Type u}

/-- The symbols still to arrive. -/
def content : List (Arrival α) → List α
  | [] => []
  | .piece symbols :: rest => symbols ++ content rest
  | .interrupted :: rest => content rest
  | .failed :: rest => content rest

/-- A bound on the number of calls until nothing is left. -/
def size : List (Arrival α) → ℕ
  | [] => 0
  | .piece symbols :: rest => symbols.length + 1 + size rest
  | .interrupted :: rest => 1 + size rest
  | .failed :: rest => 1 + size rest

/-! ### Receiving -/

/-- The answer of a receiving call. -/
inductive Received (α : Type u) where
  | data (symbols : List α)
  | exhausted
  | interrupted
  | failed

/-- One call for at most `cap` symbols; a longer piece is cut. -/
def recv (cap : ℕ) : List (Arrival α) → Received α × List (Arrival α)
  | [] => (.exhausted, [])
  | .interrupted :: rest => (.interrupted, rest)
  | .failed :: rest => (.failed, rest)
  | .piece [] :: rest => recv cap rest
  | .piece (s :: symbols) :: rest =>
      if (s :: symbols).length ≤ cap then (.data (s :: symbols), rest)
      else (.data ((s :: symbols).take cap), .piece ((s :: symbols).drop cap) :: rest)

/-- What a call leaves behind when it delivers `symbols`. -/
structure Delivers (cap : ℕ) (fd : List (Arrival α)) (symbols : List α)
    (rest : List (Arrival α)) : Prop where
  nonempty : symbols ≠ []
  bounded : symbols.length ≤ cap
  content : content fd = symbols ++ content rest
  size : size rest < size fd
  calm : ∀ a ∈ rest, (∀ piece, a ≠ .piece piece) → a ∈ fd

/-- What a call leaves behind when it delivers nothing. -/
structure Skips (fd rest : List (Arrival α)) : Prop where
  content : content fd = content rest
  size : size rest < size fd
  calm : ∀ a ∈ rest, (∀ piece, a ≠ .piece piece) → a ∈ fd

theorem Skips.trans_delivers {cap : ℕ} {fd mid rest : List (Arrival α)} {symbols : List α}
    (h₁ : Skips fd mid) (h₂ : Delivers cap mid symbols rest) : Delivers cap fd symbols rest where
  nonempty := h₂.nonempty
  bounded := h₂.bounded
  content := h₁.content.trans h₂.content
  size := h₂.size.trans h₁.size
  calm := fun a ha hpiece => h₁.calm a (h₂.calm a ha hpiece) hpiece

theorem Skips.trans {fd mid rest : List (Arrival α)} (h₁ : Skips fd mid) (h₂ : Skips mid rest) :
    Skips fd rest where
  content := h₁.content.trans h₂.content
  size := h₂.size.trans h₁.size
  calm := fun a ha hpiece => h₁.calm a (h₂.calm a ha hpiece) hpiece

theorem skips_tail {a : Arrival α} {rest : List (Arrival α)}
    (h : content (a :: rest) = content rest)
    (hsize : size rest < size (a :: rest)) : Skips (a :: rest) rest :=
  ⟨h, hsize, fun _ hb _ => List.mem_cons_of_mem a hb⟩

/-- Everything one call can do. -/
theorem recv_cases {cap : ℕ} (hcap : 0 < cap) (fd : List (Arrival α)) :
    (∃ symbols rest, recv cap fd = (.data symbols, rest) ∧ Delivers cap fd symbols rest) ∨
      (recv cap fd = (.exhausted, []) ∧ content fd = []) ∨
      (∃ rest, recv cap fd = (.interrupted, rest) ∧ .interrupted ∈ fd ∧ Skips fd rest) ∨
      ∃ rest, recv cap fd = (.failed, rest) ∧ .failed ∈ fd ∧ Skips fd rest := by
  induction fd with
  | nil => exact .inr (.inl ⟨rfl, rfl⟩)
  | cons a fd ih =>
      cases a with
      | interrupted =>
          have hskip : Skips (.interrupted :: fd) fd := skips_tail rfl (by simp [Stream.size])
          exact .inr (.inr (.inl ⟨fd, rfl, List.mem_cons_self, hskip⟩))
      | failed =>
          have hskip : Skips (.failed :: fd) fd := skips_tail rfl (by simp [Stream.size])
          exact .inr (.inr (.inr ⟨fd, rfl, List.mem_cons_self, hskip⟩))
      | piece symbols =>
          cases symbols with
          | nil =>
              have hskip : Skips (.piece [] :: fd) fd := skips_tail rfl (by simp [Stream.size])
              rcases ih with ⟨symbols, rest, hrecv, hd⟩ | ⟨hrecv, hnone⟩ | ⟨rest, hrecv, hmem, hs⟩ |
                ⟨rest, hrecv, hmem, hs⟩
              · exact .inl ⟨symbols, rest, hrecv, hskip.trans_delivers hd⟩
              · exact .inr (.inl ⟨hrecv, hnone⟩)
              · exact .inr (.inr (.inl ⟨rest, hrecv, List.mem_cons_of_mem _ hmem, hskip.trans hs⟩))
              · exact .inr (.inr (.inr ⟨rest, hrecv, List.mem_cons_of_mem _ hmem, hskip.trans hs⟩))
          | cons s symbols =>
              left
              rw [recv]
              by_cases hfits : (s :: symbols).length ≤ cap
              · rw [if_pos hfits]
                refine ⟨_, _, rfl, List.cons_ne_nil _ _, hfits, rfl, by simp [Stream.size], ?_⟩
                exact fun b hb _ => List.mem_cons_of_mem _ hb
              · rw [if_neg hfits]
                refine ⟨_, _, rfl, ?_, List.length_take_le _ _, ?_, ?_, ?_⟩
                · simpa using hcap.ne'
                · simp only [Stream.content]
                  rw [← List.append_assoc, List.take_append_drop]
                · simp only [Stream.size, List.length_drop]
                  omega
                · intro b hb hpiece
                  rcases List.mem_cons.mp hb with rfl | hb
                  · exact absurd rfl (hpiece _)
                  · exact List.mem_cons_of_mem _ hb

/-- A call that finds something makes progress, so loops over such calls end. -/
theorem size_recv {cap : ℕ} (hcap : 0 < cap) (fd : List (Arrival α))
    (h : (recv cap fd).1 ≠ .exhausted) : size (recv cap fd).2 < size fd := by
  rcases recv_cases hcap fd with ⟨symbols, rest, hrecv, hd⟩ | ⟨hrecv, -⟩ | ⟨rest, hrecv, -, hs⟩ |
    ⟨rest, hrecv, -, hs⟩
  · rw [hrecv]
    exact hd.size
  · rw [hrecv] at h
    exact absurd rfl h
  · rw [hrecv]
    exact hs.size
  · rw [hrecv]
    exact hs.size

/-- No call fails. -/
def Steady (fd : List (Arrival α)) : Prop := .failed ∉ fd

theorem Delivers.steady {cap : ℕ} {fd rest : List (Arrival α)} {symbols : List α}
    (h : Delivers cap fd symbols rest) (hfd : Steady fd) : Steady rest :=
  fun hmem => hfd (h.calm _ hmem fun _ => nofun)

theorem Skips.steady {fd rest : List (Arrival α)} (h : Skips fd rest) (hfd : Steady fd) :
    Steady rest :=
  fun hmem => hfd (h.calm _ hmem fun _ => nofun)

/-! ### Pieces alone -/

/-- The stream is calm: pieces arrive, and no call is interrupted or fails. -/
def Pieces (fd : List (Arrival α)) : Prop := ∀ a ∈ fd, ∃ piece, a = .piece piece

def arrivals (pieces : List (List α)) : List (Arrival α) := pieces.map .piece

theorem pieces_arrivals (pieces : List (List α)) : Pieces (arrivals pieces) := by
  intro a ha
  obtain ⟨piece, -, rfl⟩ := List.mem_map.mp ha
  exact ⟨piece, rfl⟩

@[simp] theorem content_arrivals (pieces : List (List α)) :
    content (arrivals pieces) = pieces.flatten := by
  induction pieces with
  | nil => rfl
  | cons piece rest ih =>
      show piece ++ content (arrivals rest) = _
      rw [ih, List.flatten_cons]

/-- A call on pieces delivers some of what is left, or finds nothing left. -/
theorem recv_pieces {cap : ℕ} (hcap : 0 < cap) {fd : List (Arrival α)} (h : Pieces fd) :
    (∃ symbols rest, recv cap fd = (.data symbols, rest) ∧ Delivers cap fd symbols rest ∧
        Pieces rest) ∨
      (recv cap fd = (.exhausted, []) ∧ content fd = []) := by
  rcases recv_cases hcap fd with ⟨symbols, rest, hrecv, hd⟩ | hexhausted | ⟨rest, -, hmem, -⟩ |
    ⟨rest, -, hmem, -⟩
  · left
    refine ⟨symbols, rest, hrecv, hd, fun a ha => ?_⟩
    by_contra hpiece
    exact hpiece (h a (hd.calm a ha fun piece hp => hpiece ⟨piece, hp⟩))
  · exact .inr hexhausted
  · obtain ⟨piece, hpiece⟩ := h _ hmem
    cases hpiece
  · obtain ⟨piece, hpiece⟩ := h _ hmem
    cases hpiece

/-- Arrival symbol by symbol. -/
def singles (symbols : List α) : List (Arrival α) := arrivals (symbols.map fun s => [s])

theorem recv_singles_cons {cap : ℕ} (hcap : 0 < cap) (s : α) (symbols : List α) :
    recv cap (singles (s :: symbols)) = (.data [s], singles symbols) :=
  if_pos hcap

/-! ### Whole pieces -/

/-- Take whole pieces until the target length is reached; the text so far and what is left. -/
def fill (target : ℕ) (got : List α) : List (List α) → List α × List (List α)
  | [] => (got, [])
  | piece :: rest =>
      if target ≤ got.length then (got, piece :: rest) else fill target (got ++ piece) rest

theorem fill_of_le {target : ℕ} {got : List α} (h : target ≤ got.length) (pieces : List (List α)) :
    fill target got pieces = (got, pieces) := by
  cases pieces with
  | nil => rfl
  | cons piece rest => exact if_pos h

theorem fill_cons {target : ℕ} {got : List α} (h : got.length < target) (piece : List α)
    (rest : List (List α)) : fill target got (piece :: rest) = fill target (got ++ piece) rest :=
  if_neg (Nat.not_le.mpr h)

/-- Nothing is lost. -/
theorem fill_content (target : ℕ) (got : List α) (pieces : List (List α)) :
    (fill target got pieces).1 ++ (fill target got pieces).2.flatten = got ++ pieces.flatten := by
  induction pieces generalizing got with
  | nil => rfl
  | cons piece rest ih =>
      rw [fill]
      split
      next => rfl
      next => rw [ih, List.flatten_cons, List.append_assoc]

theorem le_length_fill (target : ℕ) (got : List α) (pieces : List (List α)) :
    got.length ≤ (fill target got pieces).1.length := by
  induction pieces generalizing got with
  | nil => exact Nat.le_refl _
  | cons piece rest ih =>
      rw [fill]
      split
      next => exact Nat.le_refl _
      next =>
        have hstep := ih (got ++ piece)
        rw [List.length_append] at hstep
        omega

/-- The target is reached unless the pieces run out. -/
theorem fill_reached (target : ℕ) (got : List α) (pieces : List (List α)) :
    target ≤ (fill target got pieces).1.length ∨ (fill target got pieces).2 = [] := by
  induction pieces generalizing got with
  | nil => exact .inr rfl
  | cons piece rest ih =>
      rw [fill]
      split
      next h => exact .inl h
      next => exact ih _

theorem fill_suffix (target : ℕ) (got : List α) (pieces : List (List α)) :
    (fill target got pieces).2 <:+ pieces := by
  induction pieces generalizing got with
  | nil => exact List.suffix_rfl
  | cons piece rest ih =>
      rw [fill]
      split
      next => exact List.suffix_rfl
      next => exact (ih _).trans (List.suffix_cons piece rest)

/-- A nearer target on the way makes no difference. -/
theorem fill_fill {near target : ℕ} (h : near ≤ target) (got : List α) (pieces : List (List α)) :
    fill target (fill near got pieces).1 (fill near got pieces).2 = fill target got pieces := by
  induction pieces generalizing got with
  | nil => rfl
  | cons piece rest ih =>
      by_cases hnear : near ≤ got.length
      · rw [fill_of_le hnear]
      · rw [fill_cons (by omega), fill_cons (by omega), ih]

/-- The piece that crosses the target is the last one taken. -/
theorem fill_crossing {target : ℕ} {got : List α} {front : List (List α)} {piece : List α}
    (hshort : got.length + front.flatten.length < target)
    (hlong : target ≤ got.length + front.flatten.length + piece.length) (rest : List (List α)) :
    fill target got (front ++ piece :: rest) = (got ++ front.flatten ++ piece, rest) := by
  induction front generalizing got with
  | nil =>
      rw [List.flatten_nil, List.length_nil] at hshort hlong
      rw [List.nil_append, fill_cons hshort, List.flatten_nil, List.append_nil]
      exact fill_of_le (by rw [List.length_append]; omega) rest
  | cons first front ih =>
      rw [List.flatten_cons, List.length_append] at hshort hlong
      rw [List.cons_append, fill_cons (by omega), List.flatten_cons, ← List.append_assoc]
      exact ih (by rw [List.length_append]; omega) (by rw [List.length_append]; omega)

/-! ### Sending -/

/-- How a sending call goes: how many symbols it takes at most, or that it takes none. -/
inductive Acceptance where
  | accepts (n : ℕ)
  | interrupted
  | failed

/-- The sending end: what has been sent, and how the next calls go. A call after those
takes everything it is given. -/
structure Outbound (α : Type u) where
  sent : List α
  plan : List Acceptance

/-- The answer of a sending call. -/
inductive Sent where
  | count (n : ℕ)
  | interrupted
  | failed

def send (symbols : List α) (out : Outbound α) : Sent × Outbound α :=
  match out.plan with
  | [] => (.count symbols.length, ⟨out.sent ++ symbols, []⟩)
  | .accepts n :: plan => (.count (min n symbols.length), ⟨out.sent ++ symbols.take n, plan⟩)
  | .interrupted :: plan => (.interrupted, ⟨out.sent, plan⟩)
  | .failed :: plan => (.failed, ⟨out.sent, plan⟩)

end Stream
