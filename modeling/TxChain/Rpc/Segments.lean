import TxChain.Rpc.Http

/-!
# Requests in pieces

A client sends a stream and closes; the network cuts it. The server reads whole pieces
until the declared length is covered, and hands everything read behind the blank line
to the handler. So the last piece decides how much of a longer stream belongs to the
body, and whether the request is still within the cap.
-/

namespace TxChain

open Stream Search

/-- A way of cutting the stream into reads. -/
structure Segments (stream : Text) (pieces : List Text) : Prop where
  whole : pieces.flatten = stream
  nonempty : ∀ p ∈ pieces, p ≠ []
  bounded : ∀ p ∈ pieces, p.length ≤ kReadSize

/-- The pieces arrive and then the peer has closed: a further `read` returns no more than zero,
which the server's loops treat as a failure. -/
def closing (pieces : List Text) : Socket := arrivals pieces ++ [.failed]

def Served.calls : Served → List (Text × Text × Text)
  | .blocks => []
  | .closed calls _ => calls

/-- Method and target of a request line. -/
def requestParts (req : Text) : Option (Text × Text) :=
  let line := req.take ((find crlf req).getD req.length)
  match find [' '] line with
  | none => none
  | some sp1 =>
      (find [' '] (line.drop (sp1 + 1))).map fun width =>
        (line.take sp1, (line.drop (sp1 + 1)).take width)

theorem answer_calls (handler : Handler) (req : Text) :
    (answer handler req).1 =
      ((requestParts req).map fun parts => (parts.1, parts.2, bodyOf req)).toList := by
  simp only [answer, requestParts]
  cases find [' '] (req.take ((find crlf req).getD req.length)) with
  | none => rfl
  | some sp1 =>
      dsimp only
      cases find [' '] ((req.take ((find crlf req).getD req.length)).drop (sp1 + 1)) with
      | none => rfl
      | some width => rfl

/-! ### The loops -/

section Loops

variable {req whole : Text} {pieces : List Text} {headerEnd need : ℕ}

theorem recv_closing {p : Text} (hne : p ≠ []) (hbound : p.length ≤ kReadSize)
    (pieces : List Text) : recv kReadSize (closing (p :: pieces)) = (.data p, closing pieces) := by
  cases p with
  | nil => exact absurd rfl hne
  | cons c p => exact if_pos hbound

/-- The header loop takes pieces up to the blank line. -/
theorem readHeaders_closing (hpieces : ∀ p ∈ pieces, p ≠ [] ∧ p.length ≤ kReadSize)
    (hfind : find blankLine (req ++ pieces.flatten) = some headerEnd)
    (hshort : req.length < headerEnd + 4) :
    readHeaders req (closing pieces) =
      if kMaxRequestBytes < (fill (headerEnd + 4) req pieces).1.length then .refused
      else .found (fill (headerEnd + 4) req pieces).1 headerEnd
        (closing (fill (headerEnd + 4) req pieces).2) := by
  induction pieces generalizing req with
  | nil =>
      rw [List.flatten_nil, List.append_nil] at hfind
      exact absurd hshort (Nat.not_lt.mpr (add_length_le hfind))
  | cons p pieces ih =>
      obtain ⟨⟨hne, hbound⟩, hrest⟩ := List.forall_mem_cons.mp hpieces
      rw [List.flatten_cons, ← List.append_assoc] at hfind
      rw [readHeaders_call, recv_closing hne hbound, fill_cons hshort]
      dsimp only
      by_cases hsize : kMaxRequestBytes < (req ++ p).length
      · have hlonger := le_length_fill (headerEnd + 4) (req ++ p) pieces
        rw [if_pos hsize, if_pos (by omega)]
      · rw [if_neg hsize]
        rcases find_blankLine_of_part hfind with ⟨hpart, hend⟩ | ⟨hpart, hend⟩
        · rw [hpart, fill_of_le hend, if_neg hsize]
        · rw [hpart]
          exact ih hrest hfind hend

/-- Without a blank line there is no request. -/
theorem readHeaders_none (hpieces : ∀ p ∈ pieces, p ≠ [] ∧ p.length ≤ kReadSize)
    (hfind : find blankLine (req ++ pieces.flatten) = none) :
    readHeaders req (closing pieces) = .refused := by
  induction pieces generalizing req with
  | nil =>
      have hrecv : recv kReadSize (closing []) = (.failed, []) := rfl
      rw [readHeaders_call, hrecv]
  | cons p pieces ih =>
      obtain ⟨⟨hne, hbound⟩, hrest⟩ := List.forall_mem_cons.mp hpieces
      rw [List.flatten_cons, ← List.append_assoc] at hfind
      have hpart : find blankLine (req ++ p) = none := by
        cases hpart : find blankLine (req ++ p) with
        | none => rfl
        | some i =>
            rw [find_append hpart] at hfind
            cases hfind
      rw [readHeaders_call, recv_closing hne hbound]
      dsimp only
      rw [hpart]
      split
      next => rfl
      next => exact ih hrest hfind

/-- The body loop takes pieces up to the declared length. -/
theorem readRest_closing (hpieces : ∀ p ∈ pieces, p ≠ [] ∧ p.length ≤ kReadSize)
    (hsize : req.length ≤ kMaxRequestBytes) :
    readRest req need (closing pieces) =
      if kMaxRequestBytes < (fill (req.length + need) req pieces).1.length then .refused
      else .complete (fill (req.length + need) req pieces).1 := by
  induction pieces generalizing req need with
  | nil =>
      have hfill : fill (req.length + need) req [] = (req, []) := rfl
      rw [hfill, if_neg (Nat.not_lt.mpr hsize)]
      by_cases hneed : need = 0
      · rw [readRest, if_pos hneed]
      · have hrecv : recv kReadSize (closing []) = (.failed, []) := rfl
        rw [readRest_call hneed, hrecv]
  | cons p pieces ih =>
      obtain ⟨⟨hne, hbound⟩, hrest⟩ := List.forall_mem_cons.mp hpieces
      by_cases hneed : need = 0
      · rw [readRest, if_pos hneed, hneed, Nat.add_zero, fill_of_le (Nat.le_refl _),
          if_neg (Nat.not_lt.mpr hsize)]
      · rw [readRest_call hneed, recv_closing hne hbound, fill_cons (by omega)]
        dsimp only
        by_cases hbig : kMaxRequestBytes < (req ++ p).length
        · have hlonger := le_length_fill (req.length + need) (req ++ p) pieces
          rw [if_pos hbig, if_pos (by omega)]
        · rw [if_neg hbig, ih hrest (Nat.le_of_not_lt hbig)]
          have hlength : (req ++ p).length = req.length + p.length := List.length_append
          by_cases hcovered : need ≤ p.length
          · rw [fill_of_le (by omega), fill_of_le (by omega)]
          · have htarget : (req ++ p).length + (need - min need p.length) = req.length + need := by
              omega
            rw [htarget]

end Loops

/-! ### One connection -/

section Connection

variable {stream : Text} {pieces : List Text} {headerEnd : ℕ} {handler : Handler}

/-- Where the request ends according to its header. -/
def requestEnd (stream : Text) (headerEnd : ℕ) : ℕ :=
  headerEnd + 4 + (contentLength (stream.take headerEnd)).toNat

theorem Segments.reads (h : Segments stream pieces) :
    ∀ p ∈ pieces, p ≠ [] ∧ p.length ≤ kReadSize :=
  fun p hp => ⟨h.nonempty p hp, h.bounded p hp⟩

/-- What is read of a stream is all of it or reaches the end of the request. -/
theorem Segments.read_all_or_enough (h : Segments stream pieces) (target : ℕ) :
    (fill target [] pieces).1 <+: stream ∧
      ((fill target [] pieces).1 = stream ∨ target ≤ (fill target [] pieces).1.length) := by
  have hcontent := fill_content target [] pieces
  rw [List.nil_append, h.whole] at hcontent
  refine ⟨⟨_, hcontent⟩, ?_⟩
  rcases fill_reached target [] pieces with hreached | hnone
  · exact .inr hreached
  · rw [hnone, List.flatten_nil, List.append_nil] at hcontent
    exact .inl hcontent

/-- The text of the pieces up to a target has the blank line, too. -/
theorem Segments.covers (h : Segments stream pieces)
    (hfind : find blankLine stream = some headerEnd)
    {target : ℕ} (htarget : headerEnd + 4 ≤ target) :
    (fill target [] pieces).1 <+: stream ∧ headerEnd + 4 ≤ (fill target [] pieces).1.length := by
  obtain ⟨hfront, hall | hreached⟩ := h.read_all_or_enough target
  · refine ⟨hfront, ?_⟩
    rw [hall]
    exact add_length_le hfind
  · exact ⟨hfront, htarget.trans hreached⟩

/-- The server reads pieces up to the end of the request, as far as the cap allows. -/
theorem Segments.readRequest (h : Segments stream pieces)
    (hfind : find blankLine stream = some headerEnd) :
    TxChain.readRequest (closing pieces) =
      if kMaxRequestBytes < (fill (requestEnd stream headerEnd) [] pieces).1.length then .refused
      else .complete (fill (requestEnd stream headerEnd) [] pieces).1 := by
  have hreq : requestEnd stream headerEnd =
    headerEnd + 4 + (contentLength (stream.take headerEnd)).toNat := rfl
  have hnear : headerEnd + 4 ≤ requestEnd stream headerEnd := Nat.le_add_right _ _
  have hlonger := le_length_fill (requestEnd stream headerEnd) (fill (headerEnd + 4) [] pieces).1
    (fill (headerEnd + 4) [] pieces).2
  have hstart : find blankLine ([] ++ pieces.flatten) = some headerEnd := by
    rw [List.nil_append, h.whole, hfind]
  have hheaders := readHeaders_closing h.reads hstart (by simp)
  obtain ⟨hfront, hend⟩ := h.covers hfind (Nat.le_refl (headerEnd + 4))
  have hrest : ∀ p ∈ (fill (headerEnd + 4) [] pieces).2, p ≠ [] ∧ p.length ≤ kReadSize :=
    fun p hp => h.reads p ((fill_suffix _ _ _).subset hp)
  rw [fill_fill hnear] at hlonger
  rw [TxChain.readRequest, hheaders]
  by_cases hbig : kMaxRequestBytes < (fill (headerEnd + 4) [] pieces).1.length
  · rw [if_pos hbig, if_pos (by omega)]
  · rw [if_neg hbig]
    dsimp only
    have hheader : (fill (headerEnd + 4) [] pieces).1.take headerEnd = stream.take headerEnd := by
      obtain ⟨rest, hsplit⟩ := hfront
      rw [← hsplit, List.take_append_of_le_length (by omega)]
    rw [hheader, readRest_closing hrest (Nat.le_of_not_lt hbig)]
    -- what is still needed takes the text to the end of the request, or nothing is needed
    by_cases hshort : (fill (headerEnd + 4) [] pieces).1.length ≤ requestEnd stream headerEnd
    · have htarget : (fill (headerEnd + 4) [] pieces).1.length +
          ((contentLength (stream.take headerEnd)).toNat -
            ((fill (headerEnd + 4) [] pieces).1.length - (headerEnd + 4))) =
              requestEnd stream headerEnd := by
        omega
      rw [htarget, fill_fill hnear]
    · have hzero : (contentLength (stream.take headerEnd)).toNat -
          ((fill (headerEnd + 4) [] pieces).1.length - (headerEnd + 4)) = 0 := by
        omega
      have hsame : fill (requestEnd stream headerEnd) [] pieces = fill (headerEnd + 4) [] pieces :=
        (fill_fill hnear [] pieces).symm.trans (fill_of_le (by omega) _)
      rw [hzero, Nat.add_zero, fill_of_le (Nat.le_refl _), hsame]

/-- The request line stands in front of the blank line. -/
theorem requestParts_prefix {got : Text} (hfind : find blankLine got = some headerEnd)
    (hfront : got <+: stream) : requestParts got = requestParts stream := by
  obtain ⟨rest, rfl⟩ := hfront
  obtain ⟨before, after, hsplit, -⟩ := split_of_find hfind
  have hline : got = before ++ (crlf ++ (crlf ++ after)) := hsplit
  obtain ⟨i, -, hcrlf⟩ := find_of_split hline
  have hfits := add_length_le hcrlf
  have hlonger : (got ++ rest).take i = got.take i :=
    List.take_append_of_le_length (by omega)
  simp only [requestParts, hcrlf, find_append hcrlf rest, Option.getD_some, hlonger]

/-- The handler is called once with what lies behind the blank line, or not at all. -/
theorem Segments.calls (h : Segments stream pieces)
    (hfind : find blankLine stream = some headerEnd) :
    (serveConnection handler (closing pieces)).calls =
      if kMaxRequestBytes < (fill (requestEnd stream headerEnd) [] pieces).1.length then []
      else
        ((requestParts stream).map fun parts => (parts.1, parts.2,
          (fill (requestEnd stream headerEnd) [] pieces).1.drop (headerEnd + 4))).toList := by
  have hnear : headerEnd + 4 ≤ requestEnd stream headerEnd := Nat.le_add_right _ _
  obtain ⟨hfront, hend⟩ := h.covers hfind hnear
  have hfound : find blankLine (fill (requestEnd stream headerEnd) [] pieces).1 =
      some headerEnd := by
    obtain ⟨rest, hsplit⟩ := hfront
    rw [← hsplit] at hfind
    exact find_of_append hfind hend
  rw [serveConnection, h.readRequest hfind]
  by_cases hbig : kMaxRequestBytes < (fill (requestEnd stream headerEnd) [] pieces).1.length
  · rw [if_pos hbig, if_pos hbig]
    rfl
  · rw [if_neg hbig, if_neg hbig]
    show (answer handler _).1 = _
    rw [answer_calls, requestParts_prefix hfound hfront, bodyOf, hfound]

theorem Segments.calls_none (h : Segments stream pieces) (hfind : find blankLine stream = none) :
    (serveConnection handler (closing pieces)).calls = [] := by
  have hstart : find blankLine ([] ++ pieces.flatten) = none := by
    rw [List.nil_append, h.whole, hfind]
  rw [serveConnection, TxChain.readRequest, readHeaders_none h.reads hstart]
  rfl

/-! ### All ways of cutting a stream -/

/-- However the stream is cut, the handler is called with the same request or not at all. -/
def SegmentationFree (handler : Handler) (stream : Text) : Prop :=
  ∀ ps qs, Segments stream ps → Segments stream qs →
    (serveConnection handler (closing ps)).calls = (serveConnection handler (closing qs)).calls

/-- Nothing follows the request, or the request alone is past the cap. -/
def EndsWithRequest (stream : Text) : Prop :=
  ∀ headerEnd, find blankLine stream = some headerEnd → requestParts stream ≠ none →
    stream.length ≤ requestEnd stream headerEnd ∨ kMaxRequestBytes < requestEnd stream headerEnd

/-- Cut into single symbols but for one piece of `width` symbols behind `start` others. -/
def cutAround (stream : Text) (start width : ℕ) : List Text :=
  (stream.take start).map (fun c => [c]) ++
    (stream.drop start).take width :: (stream.drop (start + width)).map fun c => [c]

theorem flatten_singles (text : Text) : (text.map fun c => [c]).flatten = text := by
  induction text with
  | nil => rfl
  | cons c text ih => rw [List.map_cons, List.flatten_cons, ih, List.singleton_append]

theorem cutAround_segments {start width : ℕ} (hpos : 0 < width) (hsmall : width ≤ kReadSize)
    (hlong : start < stream.length) : Segments stream (cutAround stream start width) where
  whole := by
    rw [cutAround, List.flatten_append, List.flatten_cons, flatten_singles, flatten_singles,
      ← List.append_assoc, ← List.take_add, List.take_append_drop]
  nonempty := by
    intro p hp
    rw [cutAround, List.mem_append, List.mem_cons, List.mem_map, List.mem_map] at hp
    rcases hp with ⟨c, -, rfl⟩ | rfl | ⟨c, -, rfl⟩
    · exact List.cons_ne_nil _ _
    · rw [← List.length_pos_iff, List.length_take, List.length_drop]
      omega
    · exact List.cons_ne_nil _ _
  bounded := by
    intro p hp
    rw [cutAround, List.mem_append, List.mem_cons, List.mem_map, List.mem_map] at hp
    rcases hp with ⟨c, -, rfl⟩ | rfl | ⟨c, -, rfl⟩
    · exact kReadSize_pos
    · exact (List.length_take_le _ _).trans hsmall
    · exact kReadSize_pos

/-- With that piece at the end of the request the server reads as much too much as it is wide. -/
theorem fill_cutAround {target width : ℕ} (hpos : 0 < target) (hwidth : 0 < width)
    (hlong : target - 1 + width ≤ stream.length) :
    (fill target [] (cutAround stream (target - 1) width)).1 =
      stream.take (target - 1 + width) := by
  have hfront : ((stream.take (target - 1)).map fun c => [c]).flatten.length = target - 1 := by
    rw [flatten_singles, List.length_take]
    omega
  have hpiece : ((stream.drop (target - 1)).take width).length = width := by
    rw [List.length_take, List.length_drop]
    omega
  rw [cutAround, fill_crossing (by rw [hfront, List.length_nil]; omega)
    (by rw [hfront, hpiece, List.length_nil]; omega), flatten_singles, List.nil_append,
    ← List.take_add]

/-- Where more follows a request within the cap, two ways of cutting give two bodies. -/
theorem not_free_of_more {parts : Text × Text} (hfind : find blankLine stream = some headerEnd)
    (hparts : requestParts stream = some parts)
    (hmore : requestEnd stream headerEnd < stream.length)
    (hcap : requestEnd stream headerEnd ≤ kMaxRequestBytes) : ¬SegmentationFree handler stream := by
  intro hfree
  have hnear : headerEnd + 4 ≤ requestEnd stream headerEnd := Nat.le_add_right _ _
  have hpos : 0 < requestEnd stream headerEnd := by omega
  have hone : Segments stream (cutAround stream (requestEnd stream headerEnd - 1) 1) :=
    cutAround_segments (by decide) (by decide) (by omega)
  have htwo : Segments stream (cutAround stream (requestEnd stream headerEnd - 1) 2) :=
    cutAround_segments (by decide) (by decide) (by omega)
  have hsame := hfree _ _ hone htwo
  rw [hone.calls hfind, htwo.calls hfind, fill_cutAround hpos (by decide) (by omega),
    fill_cutAround hpos (by decide) (by omega), hparts, List.length_take, List.length_take,
    if_neg (by omega)] at hsame
  split at hsame
  next => cases hsame
  next =>
    have hbodies := congrArg (fun calls => (calls.map fun call => call.2.2.length).sum) hsame
    simp only [Option.map_some, Option.toList_some, List.map_cons, List.map_nil, List.sum_cons,
      List.sum_nil, List.length_drop, List.length_take] at hbodies
    omega

/-- A stream that ends with its request is read to its end. -/
theorem Segments.read_stream (h : Segments stream pieces) {target : ℕ}
    (hends : stream.length ≤ target) : (fill target [] pieces).1 = stream := by
  obtain ⟨hfront, hall | hreached⟩ := h.read_all_or_enough target
  · exact hall
  · exact hfront.eq_of_length_le (hends.trans hreached)

/-- The requests that every way of cutting delivers alike are exactly those at the end of their
stream, next to those that are never delivered: no blank line, no request line, or past the cap. -/
theorem request_segmentation_free_iff (handler : Handler) (stream : Text) :
    SegmentationFree handler stream ↔ EndsWithRequest stream := by
  constructor
  · intro hfree headerEnd hfind hline
    obtain ⟨parts, hparts⟩ := Option.ne_none_iff_exists'.mp hline
    by_contra hnot
    obtain ⟨hmore, hcap⟩ := not_or.mp hnot
    exact not_free_of_more hfind hparts (Nat.lt_of_not_le hmore) (Nat.le_of_not_lt hcap) hfree
  · intro hends ps qs hps hqs
    cases hfind : find blankLine stream with
    | none => rw [hps.calls_none hfind, hqs.calls_none hfind]
    | some headerEnd =>
        rw [hps.calls hfind, hqs.calls hfind]
        by_cases hline : requestParts stream = none
        · rw [hline]
          simp only [Option.map_none, Option.toList_none, ite_self]
        · by_cases hlast : stream.length ≤ requestEnd stream headerEnd
          · rw [hps.read_stream hlast, hqs.read_stream hlast]
          · -- the request is past the cap by itself, so each way of cutting is refused
            have hcap := (hends headerEnd hfind hline).resolve_left hlast
            have hrefused : ∀ pieces, Segments stream pieces →
                kMaxRequestBytes < (fill (requestEnd stream headerEnd) [] pieces).1.length := by
              intro pieces h
              obtain ⟨-, hall | hreached⟩ := h.read_all_or_enough (requestEnd stream headerEnd)
              · rw [hall]
                omega
              · omega
            rw [if_pos (hrefused ps hps), if_pos (hrefused qs hqs)]

end Connection

section Samples

/-- A request without a declared length, and one more symbol behind it. -/
def trailed : Text := "GET / HTTP/1.1\r\n\r\nx".toList

/-- The handler gets the symbol as a body if it arrives with the request. -/
theorem trailed_depends_on_cut :
    ¬SegmentationFree echoPath trailed ∧
      Segments trailed [trailed] ∧ Segments trailed [trailed.take 18, ['x']] ∧
      (serveConnection echoPath (closing [trailed])).calls =
        [("GET".toList, "/".toList, ['x'])] ∧
      (serveConnection echoPath (closing [trailed.take 18, ['x']])).calls =
        [("GET".toList, "/".toList, [])] := by
  have hfind : find blankLine trailed = some 14 := by decide +kernel
  have hwhole : Segments trailed [trailed] :=
    ⟨by decide +kernel, by decide +kernel, by decide +kernel⟩
  have hparted : Segments trailed [trailed.take 18, ['x']] :=
    ⟨by decide +kernel, by decide +kernel, by decide +kernel⟩
  have hbody : (serveConnection echoPath (closing [trailed])).calls =
      [("GET".toList, "/".toList, ['x'])] := by
    rw [hwhole.calls hfind]
    decide +kernel
  have hnone : (serveConnection echoPath (closing [trailed.take 18, ['x']])).calls =
      [("GET".toList, "/".toList, [])] := by
    rw [hparted.calls hfind]
    decide +kernel
  refine ⟨fun hfree => ?_, hwhole, hparted, hbody, hnone⟩
  have hsame := hfree _ _ hwhole hparted
  rw [hbody, hnone] at hsame
  exact absurd hsame (by decide +kernel)

end Samples

end TxChain
