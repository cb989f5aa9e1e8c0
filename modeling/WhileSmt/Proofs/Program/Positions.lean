import WhileSmt.Proofs.Program.Conservation
import WhileSmt.Proofs.Program.Layout
import Mathlib.Data.List.Forall2

/-!
Places are exact. A segment is part of a line, and its place says where; what reading takes from a
queue of segments stands in the queue, in the same order. So the place of a statement is that of its
first word, the places of statements increase in the order in which they are written, and a fault
names a text that stands at its place.

Main statement: `Program.parse_places`.
-/

namespace WhileSmt

namespace Text

@[simp] theorem byteLength_nil : byteLength [] = 0 := rfl

@[simp] theorem byteLength_cons (c : Char) (text : List Char) :
    byteLength (c :: text) = c.utf8Size + byteLength text := rfl

@[simp] theorem byteLength_append (u v : List Char) :
    byteLength (u ++ v) = byteLength u + byteLength v := by
  induction u with
  | nil => simp
  | cons c u ih =>
    rw [List.cons_append, byteLength_cons, byteLength_cons, ih]
    omega

/-- Trimming leaves nothing, or a text that starts with no blank. -/
theorem trim_eq_nil_or (text : List Char) :
    trim text = [] ∨ ∃ c rest, trim text = c :: rest ∧ isBlank c = false := by
  have hhead := List.head?_dropWhile_not isBlank text
  rw [trim, trimStart]
  cases hstart : text.dropWhile isBlank with
  | nil => exact .inl rfl
  | cons c rest =>
    rw [hstart] at hhead
    have hc : isBlank c = false := by simpa using hhead
    exact .inr ⟨c, trimEnd rest, trimEnd_append_cons hc [] rest, hc⟩

theorem exists_uncomment (line : List Char) : ∃ comment, line = uncomment line ++ comment := by
  fun_induction uncomment line with
  | case1 => exact ⟨[], rfl⟩
  | case2 rest => exact ⟨_, rfl⟩
  | case3 c rest _ ih =>
    obtain ⟨comment, h⟩ := ih
    exact ⟨comment, by rw [List.cons_append, ← h]⟩

end Text

/-! ## Parts of segments -/

namespace Segment

/-- A segment counts its columns from one and starts with no blank. -/
structure Proper (s : Segment) : Prop where
  column : 0 < s.column
  text : ∃ c rest, s.text = c :: rest ∧ Text.isBlank c = false

/-- One segment stands in another, at the place that it says. -/
def Within (t s : Segment) : Prop :=
  t.line = s.line ∧
    ∃ u v, s.text = u ++ (t.text ++ v) ∧ t.column = s.column + Text.byteLength u

/-- One segment ends before another one starts. -/
def Before (s t : Segment) : Prop :=
  s.line < t.line ∨ s.line = t.line ∧ s.column + Text.byteLength s.text ≤ t.column

/-- A part of a segment that starts it. -/
def initial (s : Segment) (u : List Char) : Segment :=
  { s with text := u }

/-- The part of a segment after a text that starts it. -/
def final (s : Segment) (u v : List Char) : Segment where
  line := s.line
  column := s.column + Text.byteLength u
  text := v

variable {s t s' t' : Segment} {u v : List Char}

theorem Within.refl (s : Segment) : s.Within s :=
  ⟨rfl, [], [], by simp, rfl⟩

theorem Within.trans (h : t.Within s) (h' : s.Within s') : t.Within s' := by
  obtain ⟨hline, u, v, htext, hcolumn⟩ := h
  obtain ⟨hline', u', v', htext', hcolumn'⟩ := h'
  refine ⟨hline.trans hline', u' ++ u, v ++ v', ?_, ?_⟩
  · rw [htext', htext]
    simp only [List.append_assoc]
  · rw [hcolumn, hcolumn', Text.byteLength_append]
    omega

theorem within_initial (h : s.text = u ++ v) : (s.initial u).Within s :=
  ⟨rfl, [], v, h, rfl⟩

theorem within_final (h : s.text = u ++ v) : (s.final u v).Within s :=
  ⟨rfl, u, [], by simp [final, h], rfl⟩

/-- What stands in the first of two segments ends before what stands in the second one starts. -/
theorem Before.within (h : s.Before t) (hs : s'.Within s) (ht : t'.Within t) : s'.Before t' := by
  obtain ⟨hline, u, v, htext, hcolumn⟩ := hs
  obtain ⟨hline', u', v', -, hcolumn'⟩ := ht
  have hlength := congrArg Text.byteLength htext
  rw [Text.byteLength_append, Text.byteLength_append] at hlength
  unfold Before at *
  omega

theorem initial_before_final (s : Segment) (u m v : List Char) :
    (s.initial u).Before (s.final (u ++ m) v) := by
  refine .inr ⟨rfl, ?_⟩
  simp only [initial, final, Text.byteLength_append]
  omega

theorem Proper.initial (hs : s.Proper) (h : s.text = u ++ v) (hu : u ≠ []) :
    (s.initial u).Proper := by
  obtain ⟨c, rest, htext, hc⟩ := hs.text
  obtain ⟨d, u, rfl⟩ := List.exists_cons_of_ne_nil hu
  rw [htext, List.cons_append] at h
  obtain ⟨rfl, -⟩ := List.cons.inj h
  exact ⟨hs.column, c, u, rfl, hc⟩

/-! ## Queues in order -/

/-- A queue in the order of the source. -/
structure Ordered (queue : List Segment) : Prop where
  proper : ∀ s ∈ queue, s.Proper
  before : queue.Pairwise Before

/-- Segments in order that stand in the segments of a queue. -/
structure Refines (parts queue : List Segment) : Prop where
  ordered : Ordered parts
  within : ∀ t ∈ parts, ∃ s ∈ queue, t.Within s

variable {parts more queue rest fine : List Segment}

theorem ordered_singleton (h : s.Proper) : Ordered [s] :=
  ⟨List.forall_mem_singleton.mpr h, List.pairwise_singleton _ s⟩

theorem Ordered.of_append (h : Ordered (queue ++ rest)) : Ordered queue ∧ Ordered rest := by
  obtain ⟨hproper, hbefore⟩ := h
  rw [List.forall_mem_append] at hproper
  rw [List.pairwise_append] at hbefore
  exact ⟨⟨hproper.1, hbefore.1⟩, ⟨hproper.2, hbefore.2.1⟩⟩

theorem Ordered.of_cons (h : Ordered (s :: queue)) : s.Proper ∧ Ordered queue := by
  obtain ⟨hproper, hbefore⟩ := h
  rw [List.forall_mem_cons] at hproper
  exact ⟨hproper.1, hproper.2, hbefore.tail⟩

namespace Refines

theorem refl (h : Ordered queue) : Refines queue queue :=
  ⟨h, fun s hs => ⟨s, hs, .refl s⟩⟩

theorem nil (queue : List Segment) : Refines [] queue :=
  ⟨⟨List.forall_mem_nil _, .nil⟩, List.forall_mem_nil _⟩

theorem coarsen (h : Refines parts queue) (h' : ∀ s ∈ queue, ∃ r ∈ rest, s.Within r) :
    Refines parts rest := by
  refine ⟨h.ordered, fun t ht => ?_⟩
  obtain ⟨s, hs, hts⟩ := h.within t ht
  obtain ⟨r, hr, hsr⟩ := h' s hs
  exact ⟨r, hr, hts.trans hsr⟩

theorem trans (h : Refines fine parts) (h' : Refines parts queue) : Refines fine queue :=
  h.coarsen h'.within

theorem of_within (ht : t.Proper) (hs : s ∈ queue) (h : t.Within s) : Refines [t] queue :=
  ⟨ordered_singleton ht, List.forall_mem_singleton.mpr ⟨s, hs, h⟩⟩

theorem of_append (h : Refines (parts ++ more) queue) :
    Refines parts queue ∧ Refines more queue := by
  obtain ⟨hordered, hwithin⟩ := h
  rw [List.forall_mem_append] at hwithin
  exact ⟨⟨hordered.of_append.1, hwithin.1⟩, ⟨hordered.of_append.2, hwithin.2⟩⟩

theorem tail (h : Refines (s :: parts) queue) : Refines parts queue :=
  ⟨h.ordered.of_cons.2, (List.forall_mem_cons.mp h.within).2⟩

theorem append (h : Refines parts queue) (h' : Refines more rest)
    (hbefore : ∀ s ∈ queue, ∀ t ∈ rest, s.Before t) : Refines (parts ++ more) (queue ++ rest) := by
  refine ⟨⟨?_, ?_⟩, ?_⟩
  · exact List.forall_mem_append.mpr ⟨h.ordered.proper, h'.ordered.proper⟩
  · refine List.pairwise_append.mpr ⟨h.ordered.before, h'.ordered.before, ?_⟩
    intro t ht t' ht'
    obtain ⟨s, hs, hts⟩ := h.within t ht
    obtain ⟨s', hs', hts'⟩ := h'.within t' ht'
    exact (hbefore s hs s' hs').within hts hts'
  · intro t ht
    rcases List.mem_append.mp ht with ht | ht
    · obtain ⟨s, hs, hts⟩ := h.within t ht
      exact ⟨s, List.mem_append_left rest hs, hts⟩
    · obtain ⟨s, hs, hts⟩ := h'.within t ht
      exact ⟨s, List.mem_append_right queue hs, hts⟩

/-- Both parts of a queue in order may be refined. -/
theorem append_of_ordered (h : Refines parts queue) (h' : Refines more rest)
    (hordered : Ordered (queue ++ rest)) : Refines (parts ++ more) (queue ++ rest) :=
  h.append h' (List.pairwise_append.mp hordered.before).2.2

/-- The first segment of a queue may be refined. -/
theorem append_right (h : Refines parts [s]) (hordered : Ordered (s :: queue)) :
    Refines (parts ++ queue) (s :: queue) :=
  h.append_of_ordered (refl hordered.of_cons.2) hordered

/-- All but the first segment of a queue may be refined. -/
theorem cons (h : Refines parts queue) (hordered : Ordered (s :: queue)) :
    Refines (s :: parts) (s :: queue) :=
  append_of_ordered (refl (ordered_singleton hordered.of_cons.1)) h hordered

end Refines

/-! ## Pieces of a segment -/

theorem refines_ofRaw (line start : Nat) (raw : List Char) :
    Refines (ofRaw line start raw).unlessEmpty [⟨line, start + 1, raw⟩] := by
  rcases Text.trim_eq_nil_or raw with hempty | ⟨c, rest, htext, hc⟩
  · rw [unlessEmpty, ofRaw, if_pos (List.isEmpty_iff.mpr hempty)]
    exact .nil _
  · have hproper : (ofRaw line start raw).Proper := ⟨Nat.succ_pos _, c, rest, htext, hc⟩
    have hwithin : (ofRaw line start raw).Within ⟨line, start + 1, raw⟩ := by
      obtain ⟨w, -, hend⟩ := Text.exists_trimEnd (Text.trimStart raw)
      refine ⟨rfl, raw.takeWhile Text.isBlank, w, ?_, ?_⟩
      · change raw = raw.takeWhile Text.isBlank ++ (Text.trim raw ++ w)
        rw [Text.trim, ← hend]
        exact List.takeWhile_append_dropWhile.symm
      · simp only [ofRaw]
        omega
    rw [unlessEmpty, if_neg (by simp [ofRaw, htext])]
    exact .of_within hproper List.mem_cons_self hwithin

theorem refines_front (hs : 0 < s.column) (u : List Char) :
    Refines (s.front u).unlessEmpty [s.initial u] := by
  have h := refines_ofRaw s.line (s.column - 1) u
  rwa [Nat.sub_add_cancel hs] at h

/-- What stands in two parts of a segment, one after the other. -/
theorem Refines.join {m : List Char} (h : s.text = u ++ m ++ v)
    (hparts : Refines parts [s.initial u]) (hmore : Refines more [s.final (u ++ m) v]) :
    Refines (parts ++ more) [s] := by
  have hbefore : ∀ r ∈ [s.initial u], ∀ t ∈ [s.final (u ++ m) v], r.Before t := by
    simp only [List.forall_mem_singleton]
    exact s.initial_before_final u m v
  refine (hparts.append hmore hbefore).coarsen fun r hr => ⟨s, List.mem_cons_self, ?_⟩
  rcases List.mem_cons.mp hr with rfl | hr
  · exact within_initial (h.trans (List.append_assoc u m v))
  · rw [List.mem_singleton.mp hr]
    exact within_final h

/-- What stands at the start of a segment, and the rear part of the segment. -/
theorem Refines.rear {m : List Char} (hparts : Refines parts [s.initial u]) (hs : 0 < s.column)
    (h : s.text = u ++ m ++ v) : Refines (parts ++ (s.rear v).unlessEmpty) [s] := by
  have hstart : s.column - 1 + (Text.byteLength s.text - Text.byteLength v) + 1 =
      s.column + Text.byteLength (u ++ m) := by
    rw [h, Text.byteLength_append]
    omega
  have hrear := refines_ofRaw s.line
    (s.column - 1 + (Text.byteLength s.text - Text.byteLength v)) v
  rw [hstart] at hrear
  exact .join h hparts hrear

end Segment

/-! ## Blocks -/

open Segment

theorem takeBlock_refines {d : Nat} {queue body rest : List Segment} (hqueue : Ordered queue)
    (h : takeBlock d queue = some (body, rest)) : Refines (body ++ rest) queue := by
  induction queue generalizing d body with
  | nil => cases h
  | cons s queue ih =>
    obtain ⟨hs, hrest⟩ := hqueue.of_cons
    unfold takeBlock at h
    split at h
    · obtain ⟨⟨body, rest⟩, htake, h⟩ := Option.map_eq_some_iff.mp h
      cases h
      exact (ih hrest htake).cons hqueue
    · next before after hscan =>
      cases h
      have htext : s.text = before ++ ['\x7d'] ++ after := by
        rw [Braces.scan_eq hscan, List.append_assoc, List.singleton_append]
      rw [← List.append_assoc]
      exact ((refines_front hs.column before).rear hs.column htext).append_right hqueue

/-- The start of a segment, and the block that it opens and what follows the block. -/
theorem Segment.block_refines {s : Segment} {u inner : List Char} {queue body rest : List Segment}
    (hqueue : Ordered (s :: queue)) (htext : s.text = u ++ inner) (hu : u ≠ [])
    (h : s.block inner queue = .ok (body, rest)) :
    Refines (s.initial u :: (body ++ rest)) (s :: queue) := by
  have hs := hqueue.of_cons.1
  have hinitial := Refines.refl (ordered_singleton (hs.initial htext hu))
  have hsplit := (hinitial.rear (m := []) hs.column (by simpa using htext)).append_right hqueue
  unfold block at h
  split at h
  · next htake =>
    cases h
    exact ((takeBlock_refines hsplit.ordered.of_cons.2 htake).cons hsplit.ordered).trans hsplit
  · cases h

/-- What stands after the word for an alternative. -/
theorem Segment.refines_alternative {s : Segment} {text : List Char} (hs : s.Proper)
    (h : Keyword.elseKw.strip? s.text = some text)
    (hne : (s.rear (Text.trimStart text)).text ≠ []) :
    Refines [s.rear (Text.trimStart text)] [s] := by
  obtain ⟨w, -, hw⟩ := Text.exists_trimStart text
  have htext : s.text = Keyword.elseKw.text.toList ++ w ++ Text.trimStart text := by
    rw [List.append_assoc, ← hw]
    exact Keyword.strip?_eq h
  have hrear := (Refines.nil [s.initial Keyword.elseKw.text.toList]).rear hs.column htext
  rwa [unlessEmpty, if_neg (by simpa using hne)] at hrear

namespace ElsePart

/-- What an alternative leaves to be read. -/
theorem of_refines {queue : List Segment} {part : ElsePart} (hqueue : Ordered queue)
    (h : ElsePart.of queue = .ok part) :
    match part with
    | .absent => True
    | .chain next => Refines next queue
    | .block body rest => Refines (body ++ rest) queue := by
  cases queue with
  | nil =>
    cases h
    trivial
  | cons s queue =>
    have hs := hqueue.of_cons.1
    cases follows_of h with
    | absent => trivial
    | @chain text hstrip hif =>
      refine (refines_alternative hs hstrip ?_).append_right hqueue
      intro hempty
      rw [hempty] at hif
      cases hif
    | @block text inner body rest hstrip hbrace hblock =>
      have hchain := (refines_alternative hs hstrip (by simp [hbrace])).append_right hqueue
      have hinner := block_refines hchain.ordered (u := ['\x7b']) hbrace (by simp) hblock
      exact (hinner.trans hchain).tail

end ElsePart

/-! ## Statements -/

namespace Stmt

/-- The place of a statement. -/
def span : Stmt → Span
  | assign span _ => span
  | check span _ => span
  | ifElse span .. => span
  | whileDo span .. => span
  | forDo span .. => span

/-- The word that a statement starts with. -/
def firstWord : Stmt → List Char
  | assign _ a => a.target.toList
  | check .. => Keyword.assertKw.text.toList
  | ifElse .. => Keyword.ifKw.text.toList
  | whileDo .. => Keyword.whileKw.text.toList
  | forDo .. => Keyword.forKw.text.toList

end Stmt

mutual

/-- A statement and all that are nested in it, in the order in which they are written. -/
def Stmt.preorder : Stmt → List Stmt
  | .assign span a => [.assign span a]
  | .check span cond => [.check span cond]
  | .ifElse span cond t e => .ifElse span cond t e :: (Block.preorder t ++ Block.preorder e)
  | .whileDo span cond body => .whileDo span cond body :: Block.preorder body
  | .forDo span init cond update body =>
    .forDo span init cond update body :: Block.preorder body

/-- The statements of a block with those inside them, in the order of the source. -/
def Block.preorder : List Stmt → List Stmt
  | [] => []
  | stmt :: rest => stmt.preorder ++ Block.preorder rest

end

theorem Block.preorder_append (b c : Block) : preorder (b ++ c) = preorder b ++ preorder c := by
  induction b with
  | nil => rfl
  | cons stmt b ih => rw [List.cons_append, preorder, preorder, ih, List.append_assoc]

theorem Block.preorder_ifElse (span : Span) (cond : Expr String) (t e rest : Block) :
    preorder (.ifElse span cond t e :: rest) =
      .ifElse span cond t e :: (preorder t ++ (preorder e ++ preorder rest)) := by
  simp [preorder, Stmt.preorder]

/-- The statement starts where the segment does, with its first word. -/
def Stmt.OpensAt (stmt : Stmt) (s : Segment) : Prop :=
  stmt.span = s.span ∧
    ∃ rest, s.text = stmt.firstWord ++ rest ∧ rest ≠ [] ∧ startsName rest = false

/-- Statements start in the segments of a queue, in order. -/
def Starts (stmts : List Stmt) (queue : List Segment) : Prop :=
  ∃ starts, List.Forall₂ Stmt.OpensAt stmts starts ∧ Refines starts queue

namespace Segment

/-- A keyword and a head are followed by the block. -/
theorem exists_of_head {s : Segment} {keyword : Keyword} {text inside inner : List Char}
    (hk : keyword.strip? s.text = some text) (h : s.head keyword text = .ok (inside, inner)) :
    ∃ rest, s.text = keyword.text.toList ++ rest ++ inner ∧ rest ≠ [] ∧
      startsName rest = false := by
  obtain ⟨w, rest, c, w', hw, -, rfl, hclosing⟩ := head_eq h
  refine ⟨w ++ '(' :: (inside ++ c :: (w' ++ ['\x7b'])), ?_, by simp, ?_⟩
  · rw [Keyword.strip?_eq hk, (splitClosing_eq hclosing).1]
    simp
  · exact startsName_append_of_blank hw (startsName_cons rfl _)

theorem exists_of_block {s : Segment} {heading : Heading} {inner : List Char}
    (h : s.opening = .ok (.block heading inner)) :
    ∃ rest, s.text = heading.keyword.text.toList ++ rest ++ inner ∧ rest ≠ [] ∧
      startsName rest = false := by
  cases opens_of_opening h with
  | branch hk hhead => exact exists_of_head hk hhead
  | loop hk hhead => exact exists_of_head hk hhead
  | count hk hhead => exact exists_of_head hk hhead

theorem opensAt_of_simple {s : Segment} {stmt : Stmt} (hs : s.Proper)
    (h : s.opening = .ok (.simple stmt)) : stmt.OpensAt s ∧ stmt.preorder = [stmt] := by
  cases opens_of_opening h with
  | check hk hassertion =>
    obtain ⟨w, rest, inside, c, after, cond, hw, rfl, -, -, -, rfl⟩ := assertion_eq hassertion
    refine ⟨⟨rfl, w ++ '(' :: rest, Keyword.strip?_eq hk, by simp, ?_⟩, rfl⟩
    exact startsName_append_of_blank hw (startsName_cons rfl _)
  | @assign a ha =>
    obtain ⟨before, after, htext, -, htarget, -⟩ := assignment_eq ha
    obtain ⟨w, w', hw, hw', hbefore⟩ := Text.exists_trim before
    have hword : s.text = w ++ (Text.trim before ++ (w' ++ ':' :: '=' :: after)) := by
      rw [htext]
      conv_lhs => rw [hbefore]
      simp
    -- no blank stands before the target, since none starts the segment
    obtain ⟨c, rest, hstart, hc⟩ := hs.text
    have hnone : w = [] := by
      cases w with
      | nil => rfl
      | cons e w =>
        rw [hstart] at hword
        obtain ⟨rfl, -⟩ := List.cons.inj hword
        exact absurd (hw c List.mem_cons_self) (by simp [hc])
    refine ⟨⟨rfl, w' ++ ':' :: '=' :: after, ?_, by simp, ?_⟩, rfl⟩
    · rw [hword, hnone, Stmt.firstWord, htarget, String.toList_ofList, List.nil_append]
    · exact startsName_append_of_blank hw' (startsName_cons rfl _)

end Segment

namespace Starts

variable {xs ys : List Stmt} {queue rest : List Segment}

theorem nil (queue : List Segment) : Starts [] queue :=
  ⟨[], .nil, .nil queue⟩

theorem singleton {s : Segment} {stmt : Stmt} (hs : s.Proper) (h : stmt.OpensAt s) :
    Starts [stmt] [s] :=
  ⟨[s], .cons h .nil, .refl (ordered_singleton hs)⟩

theorem append (h : Starts xs queue) (h' : Starts ys rest) (hqueue : Ordered (queue ++ rest)) :
    Starts (xs ++ ys) (queue ++ rest) := by
  obtain ⟨starts, hxs, hstarts⟩ := h
  obtain ⟨starts', hys, hstarts'⟩ := h'
  exact ⟨starts ++ starts', List.rel_append hxs hys, hstarts.append_of_ordered hstarts' hqueue⟩

theorem trans (h : Starts xs rest) (h' : Refines rest queue) : Starts xs queue := by
  obtain ⟨starts, hxs, hstarts⟩ := h
  exact ⟨starts, hxs, hstarts.trans h'⟩

/-- A statement with a block, after the block and what follows it have been read. -/
theorem block {s : Segment} {body : List Segment} {heading : Heading} {inner : List Char}
    {stmt : Stmt} (hqueue : Ordered (s :: queue))
    (hopen : s.opening = .ok (.block heading inner))
    (hblock : s.block inner queue = .ok (body, rest)) (hspan : stmt.span = s.span)
    (hword : stmt.firstWord = heading.keyword.text.toList)
    (hxs : Ordered body → Starts xs body) (hys : Ordered rest → Starts ys rest) :
    Starts (stmt :: (xs ++ ys)) (s :: queue) := by
  obtain ⟨after, htext, hne, hafter⟩ := exists_of_block hopen
  have hrefines := block_refines hqueue htext (by simp [hne]) hblock
  have hordered := hrefines.ordered.of_cons.2
  have hstarts := (hxs hordered.of_append.1).append (hys hordered.of_append.2) hordered
  have hstmt : stmt.OpensAt (s.initial (heading.keyword.text.toList ++ after)) :=
    ⟨hspan, after, by rw [hword]; rfl, hne, hafter⟩
  have hstart := singleton hrefines.ordered.of_cons.1 hstmt
  exact (hstart.append hstarts hrefines.ordered).trans hrefines

end Starts

/-- The statements of a block start in the queue from which the block is read, in order. -/
theorem Block.Reading.starts {queue : List Segment} {b : Block} (h : Reading queue b)
    (hqueue : Ordered queue) : Starts (preorder b) queue := by
  induction h with
  | nil => exact .nil []
  | @simple s queue stmt more hopen _ ih =>
    obtain ⟨hs, hrest⟩ := hqueue.of_cons
    obtain ⟨hstmt, hsingle⟩ := opensAt_of_simple hs hopen
    rw [preorder, hsingle]
    exact (Starts.singleton hs hstmt).append (ih hrest) hqueue
  | loop hopen hblock _ _ ihbody ih => exact .block hqueue hopen hblock rfl rfl ihbody ih
  | count hopen hblock _ _ ihbody ih => exact .block hqueue hopen hblock rfl rfl ihbody ih
  | branch hopen hblock _ _ _ ihbody ih =>
    rw [preorder_ifElse]
    exact .block hqueue hopen hblock rfl rfl ihbody ih
  | @chain s queue body rest chain cond inner block more hopen hblock helse _ _ ihbody ih =>
    -- the alternative and what follows the branch are read together
    rw [preorder_ifElse, ← preorder_append, List.take_append_drop]
    refine .block hqueue hopen hblock rfl rfl ihbody fun hrest => ?_
    have hchain : Refines chain rest := ElsePart.of_refines hrest helse
    exact (ih hchain.ordered).trans hchain
  | @alternative s queue body rest body' rest' cond inner block other more hopen hblock helse _ _ _
      ihbody ihother ih =>
    rw [preorder_ifElse]
    refine .block hqueue hopen hblock rfl rfl ihbody fun hrest => ?_
    have halternative : Refines (body' ++ rest') rest := ElsePart.of_refines hrest helse
    have hordered := halternative.ordered.of_append
    exact ((ihother hordered.1).append (ih hordered.2) halternative.ordered).trans halternative

/-! ## Faults -/

theorem bind_eq_error {ε α β : Type} {x : Except ε α} {f : α → Except ε β} {e : ε}
    (h : (x >>= f) = .error e) : x = .error e ∨ ∃ a, x = .ok a ∧ f a = .error e := by
  cases x with
  | error e' =>
    cases h
    exact .inl rfl
  | ok a => exact .inr ⟨a, rfl, h⟩

theorem error_of_bind_pure {ε α β : Type} {x : Except ε α} {f : α → β} {e : ε}
    (h : (x >>= fun a => pure (f a)) = .error e) : x = .error e := by
  rcases bind_eq_error h with h | ⟨a, -, h⟩
  · exact h
  · cases h

/-- Faults are those of one segment. -/
def FailsAt {α : Type} (s : Segment) (x : Except ParseError α) : Prop :=
  ∀ e, x = .error e → e.segment = s

namespace FailsAt

variable {α β : Type} {s : Segment}

theorem fail (s : Segment) (fault : Fault) : FailsAt s (s.fail fault : Except ParseError α) := by
  rintro e ⟨⟩
  rfl

theorem ok (s : Segment) (a : α) : FailsAt s (.ok a) := by
  rintro e ⟨⟩

theorem bind {x : Except ParseError α} {f : α → Except ParseError β} (hx : FailsAt s x)
    (hf : ∀ a, FailsAt s (f a)) : FailsAt s (x >>= f) := by
  intro e h
  rcases bind_eq_error h with h | ⟨a, -, h⟩
  · exact hx e h
  · exact hf a e h

end FailsAt

namespace Segment

theorem expression_failsAt (s : Segment) (text : List Char) : FailsAt s (s.expression text) := by
  unfold expression
  split
  · exact .ok s _
  · exact .fail s _

theorem assignment_failsAt (s : Segment) (text : List Char) : FailsAt s (s.assignment text) := by
  unfold assignment
  split
  · exact .fail s _
  · dsimp only
    split
    · exact (s.expression_failsAt _).bind fun value => .ok s _
    · exact .fail s _

theorem head_failsAt (s : Segment) (keyword : Keyword) (text : List Char) :
    FailsAt s (s.head keyword text) := by
  unfold head
  split
  · split
    · split
      · exact .ok s _
      · exact .fail s _
    · exact .fail s _
  · exact .fail s _

theorem assertion_failsAt (s : Segment) (text : List Char) : FailsAt s (s.assertion text) := by
  unfold assertion
  split
  · split
    · split
      · exact (s.expression_failsAt _).bind fun cond => .ok s _
      · exact .fail s _
    · exact .fail s _
  · exact .fail s _

theorem opening_failsAt (s : Segment) : FailsAt s s.opening := by
  unfold opening
  split
  · refine (s.head_failsAt _ _).bind fun parts => ?_
    exact (s.expression_failsAt _).bind fun cond => .ok s _
  · split
    · refine (s.head_failsAt _ _).bind fun parts => ?_
      exact (s.expression_failsAt _).bind fun cond => .ok s _
    · split
      · refine (s.head_failsAt _ _).bind fun parts => ?_
        dsimp only
        split
        · refine (s.assignment_failsAt _).bind fun init => ?_
          refine (s.expression_failsAt _).bind fun cond => ?_
          exact (s.assignment_failsAt _).bind fun update => .ok s _
        · exact .fail s _
      · split
        · exact (s.assertion_failsAt _).bind fun stmt => .ok s _
        · split
          · exact .fail s _
          · split
            · exact .fail s _
            · split
              · exact (s.assignment_failsAt _).bind fun a => .ok s _
              · exact .fail s _

theorem block_failsAt (s : Segment) (inner : List Char) (queue : List Segment) :
    FailsAt s (s.block inner queue) := by
  unfold block
  split
  · exact .ok s _
  · exact .fail s _

theorem Refines.of_head {s : Segment} {queue : List Segment} (hqueue : Ordered (s :: queue)) :
    Refines [s] (s :: queue) :=
  .of_within hqueue.of_cons.1 List.mem_cons_self (.refl s)

end Segment

theorem ElsePart.refines_of_error {queue : List Segment} {e : ParseError} (hqueue : Ordered queue)
    (h : ElsePart.of queue = .error e) : Refines [e.segment] queue := by
  cases queue with
  | nil => cases h
  | cons s queue =>
    have hhead := Refines.of_head hqueue
    simp only [ElsePart.of] at h
    split at h
    · cases h
    · next text hstrip =>
      split at h
      · cases h
      · split at h
        · next inner hbrace =>
          rw [block_failsAt _ _ _ e (error_of_bind_pure h)]
          exact (refines_alternative hqueue.of_cons.1 hstrip (by simp [hbrace])).trans hhead
        · rw [FailsAt.fail s _ e h]
          exact hhead

/-- A fault is that of a segment which stands in the queue that is read. -/
theorem Block.refines_of_error {queue : List Segment} {e : ParseError} (hqueue : Ordered queue)
    (h : Block.parse queue = .error e) : Refines [e.segment] queue := by
  induction queue using Block.parse.induct with
  | case1 =>
    rw [Block.parse] at h
    cases h
  | case2 s queue e' hopen =>
    rw [parse_opening_error hopen] at h
    cases h
    rw [s.opening_failsAt e hopen]
    exact .of_head hqueue
  | case3 s queue stmt hopen ih =>
    rw [parse_simple hopen] at h
    have hrest := (Refines.refl hqueue).tail
    exact (ih hrest.ordered (error_of_bind_pure h)).trans hrest
  | case4 s queue heading inner hopen e' hblock =>
    rw [parse_block_error hopen hblock] at h
    cases h
    rw [s.block_failsAt _ _ e hblock]
    exact .of_head hqueue
  | case5 s queue heading inner hopen body rest hblock ihbody ihrest _ ihchain ihother ihafter =>
    obtain ⟨after, htext, hne, -⟩ := exists_of_block hopen
    have hrefines := block_refines hqueue htext (by simp [hne]) hblock
    obtain ⟨hbody, hrest⟩ := hrefines.tail.of_append
    rw [parse_block hopen hblock] at h
    rcases bind_eq_error h with h | ⟨block, -, h⟩
    · exact (ihbody hbody.ordered h).trans hbody
    cases heading with
    | loop cond => exact (ihrest hrest.ordered (error_of_bind_pure h)).trans hrest
    | count init cond update => exact (ihrest hrest.ordered (error_of_bind_pure h)).trans hrest
    | branch cond =>
      dsimp only at h
      split at h
      · next helse =>
        cases h
        exact (ElsePart.refines_of_error hrest.ordered helse).trans hrest
      · exact (ihrest hrest.ordered (error_of_bind_pure h)).trans hrest
      · next chain helse =>
        have hchain : Refines chain rest := ElsePart.of_refines hrest.ordered helse
        exact ((ihchain chain helse hchain.ordered (error_of_bind_pure h)).trans hchain).trans hrest
      · next body' rest' helse =>
        have halternative : Refines (body' ++ rest') rest := ElsePart.of_refines hrest.ordered helse
        obtain ⟨hbody', hrest'⟩ := (halternative.trans hrest).of_append
        rcases bind_eq_error h with h | ⟨_, -, h⟩
        · exact (ihother body' rest' helse hbody'.ordered h).trans hbody'
        · exact (ihafter body' rest' helse hrest'.ordered (error_of_bind_pure h)).trans hrest'

/-! ## Lines -/

namespace Segment

/-- Every line as a segment. -/
def wholeLines (number : Nat) : List (List Char) → List Segment
  | [] => []
  | line :: more => ⟨number, 1, line⟩ :: wholeLines (number + 1) more

theorem exists_of_mem_wholeLines {number : Nat} {lines : List (List Char)} {s : Segment}
    (h : s ∈ wholeLines number lines) :
    ∃ n line, lines[n]? = some line ∧ s = ⟨number + n, 1, line⟩ := by
  induction lines generalizing number with
  | nil => cases h
  | cons line lines ih =>
    rcases List.mem_cons.mp h with rfl | h
    · exact ⟨0, line, rfl, rfl⟩
    · obtain ⟨n, line', hline, rfl⟩ := ih h
      exact ⟨n + 1, line', hline, by rw [Nat.add_right_comm, Nat.add_assoc]⟩

theorem refines_place (line start : Nat) (pieces : List (List Char)) :
    Refines (place line start pieces) [⟨line, start + 1, pieces.flatten⟩] := by
  induction pieces generalizing start with
  | nil => exact .nil _
  | cons piece more ih =>
    have hlater := ih (start + Text.byteLength piece)
    rw [Nat.add_right_comm] at hlater
    rw [place_cons]
    exact .join (s := ⟨line, start + 1, piece ++ more.flatten⟩) (u := piece) (m := [])
      (v := more.flatten) (by simp) (refines_ofRaw line start piece) (by simpa [final] using hlater)

/-- The segments of a line stand in it. -/
theorem refines_cut (number : Nat) (line : List Char) :
    Refines (place number 0 (cut 0 line)) [⟨number, 1, line⟩] := by
  obtain ⟨comment, hline⟩ := Text.exists_uncomment line
  refine (refines_place number 0 (cut 0 line)).coarsen ?_
  rw [(cut_eq 0 line).1]
  refine List.forall_mem_singleton.mpr ⟨_, List.mem_cons_self, ?_⟩
  exact within_initial (s := ⟨number, 1, line⟩) hline

theorem refines_ofLines (number : Nat) (lines : List (List Char)) :
    Refines (ofLines number lines) (wholeLines number lines) := by
  induction lines generalizing number with
  | nil => exact .nil _
  | cons line more ih =>
    refine (refines_cut number line).append (ih (number + 1)) ?_
    refine List.forall_mem_singleton.mpr fun t ht => .inl ?_
    obtain ⟨n, line', -, rfl⟩ := exists_of_mem_wholeLines ht
    dsimp only
    omega

end Segment

/-! ## Places -/

/-- One place comes before another one. -/
def Span.Before (a b : Span) : Prop :=
  a.line < b.line ∨ a.line = b.line ∧ a.column < b.column

/-- A text stands at a place of a source: on its line, after as many bytes as its column says. -/
def Span.Shows (span : Span) (source text : List Char) : Prop :=
  ∃ n before after, (Text.lines source)[n]? = some (before ++ (text ++ after)) ∧
    span = ⟨n + 1, Text.byteLength before + 1⟩

/-- A word stands at a place of a source, and does not run on into a longer name. -/
def Span.ShowsWord (span : Span) (source word : List Char) : Prop :=
  ∃ n before after, (Text.lines source)[n]? = some (before ++ (word ++ after)) ∧
    span = ⟨n + 1, Text.byteLength before + 1⟩ ∧ startsName after = false

namespace Segment

theorem Before.span {s t : Segment} (h : s.Before t) (hs : s.Proper) : s.span.Before t.span := by
  obtain ⟨c, rest, htext, -⟩ := hs.text
  have hpos := c.utf8Size_pos
  unfold Before at h
  rw [htext, Text.byteLength_cons] at h
  unfold Span.Before
  simp only [Segment.span]
  omega

theorem Refines.shows {parts : List Segment} {source : List Char}
    (h : Refines parts (wholeLines 1 (Text.lines source))) :
    ∀ s ∈ parts, s.span.Shows source s.text := by
  intro s hs
  obtain ⟨t, ht, hline, u, v, htext, hcolumn⟩ := h.within s hs
  obtain ⟨n, line, hget, rfl⟩ := exists_of_mem_wholeLines ht
  dsimp only at hline htext hcolumn
  refine ⟨n, u, v, htext ▸ hget, ?_⟩
  rw [Segment.span, hline, hcolumn, Nat.add_comm 1 n, Nat.add_comm 1]

end Segment

theorem Stmt.OpensAt.showsWord {stmt : Stmt} {s : Segment} {source : List Char}
    (h : stmt.OpensAt s) (hs : s.span.Shows source s.text) :
    stmt.span.ShowsWord source stmt.firstWord := by
  obtain ⟨hspan, rest, htext, hne, hrest⟩ := h
  obtain ⟨n, before, after, hline, hplace⟩ := hs
  refine ⟨n, before, rest ++ after, ?_, hspan.trans hplace, ?_⟩
  · rw [hline, htext, List.append_assoc]
  · obtain ⟨c, rest, rfl⟩ := List.exists_cons_of_ne_nil hne
    exact hrest

namespace Starts

variable {stmts : List Stmt} {source : List Char}

theorem showsWord (h : Starts stmts (wholeLines 1 (Text.lines source))) :
    ∀ stmt ∈ stmts, stmt.span.ShowsWord source stmt.firstWord := by
  obtain ⟨starts, hopens, hrefines⟩ := h
  have hshows := hrefines.shows
  clear hrefines
  induction hopens with
  | nil => exact List.forall_mem_nil _
  | cons hstmt _ ih =>
    rw [List.forall_mem_cons] at hshows ⊢
    exact ⟨hstmt.showsWord hshows.1, ih hshows.2⟩

theorem pairwise_before {queue : List Segment} (h : Starts stmts queue) :
    (stmts.map Stmt.span).Pairwise Span.Before := by
  obtain ⟨starts, hopens, ⟨hproper, hbefore⟩, -⟩ := h
  have hspans : stmts.map Stmt.span = starts.map Segment.span := by
    clear hproper hbefore
    induction hopens with
    | nil => rfl
    | cons hstmt _ ih => rw [List.map_cons, List.map_cons, hstmt.1, ih]
  rw [hspans, List.pairwise_map]
  exact hbefore.imp_of_mem fun hs _ h => h.span (hproper _ hs)

end Starts

/-- A report shows the line of its place, if there is such a line. -/
theorem Diagnostic.report_of_line {d : Diagnostic} {span : Span} {source : String}
    {line : List Char} (hspan : d.span = some span)
    (hline : (Text.lines source.toList)[span.line - 1]? = some line) :
    d.report source =
      "Error: " ++ d.cause.text ++ "\n  --> " ++ Text.natural span.line ++ ":" ++
        Text.natural span.column ++ ("\n   | " ++ String.ofList line ++ "\n   | " ++
          String.ofList (List.replicate (span.column - 1) ' ') ++ "^") := by
  simp only [report, hspan, excerpt, hline]

/-- Places are exact. In a program that is read, the first word of every statement stands at the
place of the statement, and the places increase in the order in which the statements are written.
A fault names a text of the source that stands at its place, so that its report shows the line of
the source and a caret under the column. -/
theorem Program.parse_places (source : String) :
    match Program.parse source with
    | .ok p =>
      (∀ stmt ∈ Block.preorder p.statements,
        stmt.span.ShowsWord source.toList stmt.firstWord) ∧
      ((Block.preorder p.statements).map Stmt.span).Pairwise Span.Before
    | .error e =>
      ∃ span text, e.diagnostic.isSyntaxError = true ∧ e.diagnostic.span = some span ∧
        e.diagnostic.line? = some text ∧ text ≠ "" ∧ span.Shows source.toList text.toList ∧
        ∃ line, (Text.lines source.toList)[span.line - 1]? = some line ∧
          e.diagnostic.report source =
            "Error: " ++ e.diagnostic.cause.text ++ "\n  --> " ++ Text.natural span.line ++ ":" ++
              Text.natural span.column ++ ("\n   | " ++ String.ofList line ++ "\n   | " ++
                String.ofList (List.replicate (span.column - 1) ' ') ++ "^") := by
  have hqueue := refines_ofLines 1 (Text.lines source.toList)
  rw [Program.parse]
  cases h : Block.parse (ofSource source.toList) with
  | ok statements =>
    have hstarts := (Block.parse_eq_ok_iff.mp h).starts hqueue.ordered
    exact ⟨(hstarts.trans hqueue).showsWord, hstarts.pairwise_before⟩
  | error e =>
    have hrefines := (Block.refines_of_error hqueue.ordered h).trans hqueue
    have hshows := hrefines.shows e.segment List.mem_cons_self
    obtain ⟨c, rest, htext, -⟩ := hrefines.ordered.of_cons.1.text
    refine ⟨e.segment.span, String.ofList e.segment.text, rfl, rfl, rfl, ?_, ?_, ?_⟩
    · intro hempty
      have hnil := congrArg String.toList hempty
      rw [String.toList_ofList, htext] at hnil
      cases hnil
    · rwa [String.toList_ofList]
    · obtain ⟨n, before, after, hline, hspan⟩ := hshows
      have hget : (Text.lines source.toList)[e.segment.span.line - 1]? =
          some (before ++ (e.segment.text ++ after)) := by
        rw [hspan]
        exact hline
      exact ⟨_, hget, Diagnostic.report_of_line rfl hget⟩

example : ((Program.parse "\u00a0x := 1; if (x > 0) \x7b y := x; \x7d").toOption.map fun p =>
    (Block.preorder p.statements).map Stmt.span) = some [⟨1, 3⟩, ⟨1, 11⟩, ⟨1, 24⟩] := by
  decide +kernel

end WhileSmt
