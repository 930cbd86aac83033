import LearnSpace.KvStore.Frame

/-!
# How a stream is cut into chunks matters

`feed` is a connection: every chunk is appended to the receive buffer, and
`recvImp` consumes what `analysis` says. A header whose body is still to come
is consumed without it; so a stream that arrives byte by byte hands on nothing
but empty commands (`feed_bytes`), whereas a frame that arrives whole hands on
its body (`hands_body`). And of two frames that arrive together the second is
left behind. What remains are the streams of at most one frame, and that empty
(`chunkingIrrelevant_iff`).
-/

namespace LearnSpace.KvStore

open Keel

variable {ε : Type} {g : Bytes → Except ε Unit}

/-- Receive chunks one after the other, into a buffer that holds `B`: the
buffer in the end, and the bytes of the commands. -/
def feed (g : Bytes → Except ε Unit) :
    Bytes → List (List Byte) → Except (ParseFault ε) (Bytes × List (List Byte))
  | B, [] => .ok (B, [])
  | B, chunk :: chunks => do
    let (B, commands) ← recvImp g (B.append chunk)
    let (B, commands') ← feed g B chunks
    return (B, commands ++ commands')

/-- A fresh connection: the commands, and what is left in the buffer. -/
def receive (g : Bytes → Except ε Unit) (chunks : List (List Byte)) :
    Except (ParseFault ε) (List (List Byte) × List Byte) :=
  (feed g .new chunks).map (fun r => (r.2, r.1.content))

/-- Any two ways to cut the stream of the frames hand on the same commands and
leave the same bytes. -/
def ChunkingIrrelevant (g : Bytes → Except ε Unit) (frames : List Frame) : Prop :=
  ∀ chunks chunks' : List (List Byte), chunks.flatten = stream frames →
    chunks'.flatten = stream frames →
    ∃ r, receive g chunks = .ok r ∧ receive g chunks' = .ok r

/-! ## One call -/

variable {B : Bytes} {f : Frame} {rest : List Byte} {ℓ : Nat}

theorem analysis_run (g : Bytes → Except ε Unit) (B : Bytes) :
    analysis g B = (analysisLoop (B.content ++ List.replicate (B.capacity - B.size) 0) g).run
      ⟨0, 0, B.content.length - 0, []⟩ := rfl

theorem analysis_noLine (hline : lineAt B.content 0 = none) :
    analysis g B = .ok ⟨[], 0⟩ := by
  rw [analysis_run]
  by_cases hc : 0 < B.content.length - 0
  · exact While.run_leave (iteration_noLine hc hline)
  · exact While.run_leave (iteration_leave hc)

/-- A buffer that ends with its first line: the header is consumed, and at
most an empty command handed on. -/
theorem analysis_lastLine (hg : ∀ c, g c = .ok ()) (hline : lineAt B.content 0 = some ℓ)
    (hend : ℓ + 2 = B.content.length) {r : Analysis} (hrun : analysis g B = .ok r) :
    r.dissipativeSize = B.content.length ∧ ∀ command ∈ r.commands, command = [] := by
  rw [analysis_run] at hrun
  have hc : 0 < B.content.length - 0 := by omega
  cases hnumber : numberAt B.content 0 ℓ with
  | none =>
      rw [While.run_fault (iteration_header hc hline hnumber)] at hrun
      cases hrun
  | some len =>
      have hsub : sub64 (B.content.length - 0) (0 + (ℓ + 2)) = 0 := by
        rw [sub64, if_pos (by omega)]
        omega
      by_cases hlen : sub64 (B.content.length - 0) (0 + (ℓ + 2)) < toSizeT len
      · rw [While.run_leave (iteration_break hc hline hnumber hlen)] at hrun
        cases hrun
        refine ⟨by dsimp only; omega, fun command hmem => absurd hmem List.not_mem_nil⟩
      · -- nothing is left behind the header, so the command is empty
        have hzero : toSizeT len = 0 := by omega
        have hnext : iteration (B.content ++ List.replicate (B.capacity - B.size) 0) g
            ⟨0, 0, B.content.length - 0, []⟩ = _ :=
          iteration_goOn hc hline hnumber (by omega) (by omega) (hg _)
        rw [While.run_next hnext, While.run_leave (iteration_leave (by omega))] at hrun
        cases hrun
        refine ⟨by dsimp only; omega, fun command hmem => ?_⟩
        rw [List.nil_append, List.mem_singleton] at hmem
        rw [hmem, hzero, bodyAt, List.take_zero]

/-- A frame at the front of the buffer: its body is handed on, and `data` is
left at the body. -/
theorem analysis_frame (hg : ∀ c, g c = .ok ()) (hB : B.content = f.encode ++ rest) :
    analysis g B = (analysisLoop (B.content ++ List.replicate (B.capacity - B.size) 0) g).run
      ⟨f.encode.length, (decimal f.body.length).length + 2, f.body.length + rest.length,
        [f.body]⟩ := by
  have hline := lineAt_encode f rest
  have hnumber := numberAt_encode f rest
  have hlen := toSizeT_natCast f.fits
  have hdec : f.encode = decimal f.body.length ++ crlf ++ f.body := rfl
  have hcrlf : crlf.length = 2 := rfl
  have hsize : f.encode.length = (decimal f.body.length).length + 2 + f.body.length := by
    rw [hdec, List.length_append, List.length_append, hcrlf]
  have hbody : bodyAt (f.encode ++ rest) ((decimal f.body.length).length + 2) f.body.length
      = f.body := by
    rw [bodyAt, hdec, List.append_assoc, List.drop_left' (by rw [List.length_append, hcrlf]),
      List.take_left]
  have htotal := congrArg List.length hB
  rw [List.length_append, hsize] at htotal
  rw [← hB] at hline hnumber hbody
  have hnext : iteration (B.content ++ List.replicate (B.capacity - B.size) 0) g
      ⟨0, 0, B.content.length - 0, []⟩ = _ :=
    iteration_goOn (by omega) hline hnumber (by omega) (by rw [hlen]; omega) (hg _)
  rw [analysis_run, While.run_next hnext]
  simp only [Nat.zero_add, hlen, hbody, List.nil_append]
  congr 2
  · omega
  · omega

/-- The body of a frame at the front is among the commands. -/
theorem hands_body (hg : ∀ c, g c = .ok ()) (hB : B.content = f.encode ++ rest)
    {r : Analysis} (hrun : analysis g B = .ok r) : f.body ∈ r.commands := by
  rw [analysis_frame hg hB] at hrun
  obtain ⟨t, hvisits, hdone⟩ := While.exists_leave hrun
  have hmem : f.body ∈ t.commands := by
    refine hvisits.invariant (I := fun k => f.body ∈ k.commands) (List.mem_singleton_self _)
      (fun k k' hk hbody => ?_)
    exact (iteration_next hbody).2.2.subset hk
  rw [iteration_done hdone]
  exact hmem

/-- When the rest is no longer than the consumed frame less its body, the loop
stops behind the frame. -/
theorem analysis_frame_stop (hg : ∀ c, g c = .ok ()) (hB : B.content = f.encode ++ rest)
    (hrest : f.body.length + rest.length ≤ f.encode.length) :
    analysis g B = .ok ⟨[f.body], f.encode.length⟩ := by
  rw [analysis_frame hg hB]
  refine While.run_leave ?_
  show iteration _ g _ = _
  exact if_pos (Nat.not_lt.mpr hrest)

/-! ## Chunk by chunk -/

variable {chunk : List Byte} {chunks : List (List Byte)}

/-- A chunk after which `analysis` returns, and the chunks behind it. -/
theorem feed_cons {r : Analysis} (hrun : analysis g (B.append chunk) = .ok r) :
    ∃ B', B'.content = (B.content ++ chunk).drop r.dissipativeSize ∧
      ∀ chunks, feed g B (chunk :: chunks)
        = (feed g B' chunks).map (fun q => (q.1, r.commands ++ q.2)) := by
  refine ⟨(B.append chunk).remove 0 r.dissipativeSize (Nat.zero_le _), ?_, fun chunks => ?_⟩
  · show (B.content ++ chunk).take 0 ++ (B.content ++ chunk).drop (0 + r.dissipativeSize) = _
    rw [List.take_zero, List.nil_append, Nat.zero_add]
  · simp only [feed, recvImp, hrun, bind, Except.bind, pure, Except.pure]
    cases feed g ((B.append chunk).remove 0 r.dissipativeSize (Nat.zero_le _)) chunks <;> rfl

/-- When a connection gets through a chunk, `analysis` returned. -/
theorem analysis_of_feed {q : Bytes × List (List Byte)}
    (h : feed g B (chunk :: chunks) = .ok q) : ∃ r, analysis g (B.append chunk) = .ok r := by
  cases hrun : analysis g (B.append chunk) with
  | ok r => exact ⟨r, rfl⟩
  | error e =>
      simp only [feed, recvImp, hrun, bind, Except.bind] at h
      cases h

/-- `feed_cons` when it is known that the connection gets through. -/
theorem feed_cons_inv {q : Bytes × List (List Byte)}
    (h : feed g B (chunk :: chunks) = .ok q) :
    ∃ r B' q', analysis g (B.append chunk) = .ok r ∧
      B'.content = (B.content ++ chunk).drop r.dissipativeSize ∧
      feed g B' chunks = .ok q' ∧ q = (q'.1, r.commands ++ q'.2) := by
  obtain ⟨r, hrun⟩ := analysis_of_feed h
  obtain ⟨B', hB', hfeed⟩ := feed_cons hrun
  rw [hfeed] at h
  cases hq : feed g B' chunks with
  | error e => rw [hq] at h; cases h
  | ok q' =>
      rw [hq] at h
      cases h
      exact ⟨r, B', q', hrun, hB', hq, rfl⟩

/-- **Byte by byte nothing but empty commands is handed on.** The buffer never
holds more than one line, and that without the bytes behind it. -/
theorem feed_bytes (hg : ∀ c, g c = .ok ()) (bytes : List Byte) {q : Bytes × List (List Byte)}
    (hB : lineAt B.content 0 = none) (h : feed g B (bytes.map (fun b => [b])) = .ok q) :
    ∀ command ∈ q.2, command = [] := by
  induction bytes generalizing B q with
  | nil =>
      cases h
      exact fun command hmem => absurd hmem List.not_mem_nil
  | cons b bytes ih =>
      obtain ⟨r, B', q', hrun, hB', hfeed, rfl⟩ := feed_cons_inv h
      have hcontent : (B.append [b]).content = B.content ++ [b] := rfl
      -- one byte completes at most one line, and then it is the whole buffer
      have key : lineAt B'.content 0 = none ∧ ∀ command ∈ r.commands, command = [] := by
        cases hline : lineAt (B.append [b]).content 0 with
        | none =>
            rw [analysis_noLine hline] at hrun
            cases hrun
            rw [hB', List.drop_zero, ← hcontent]
            exact ⟨hline, fun command hmem => absurd hmem List.not_mem_nil⟩
        | some ℓ =>
            have hend : ℓ + 2 = (B.append [b]).content.length := by
              rw [hcontent, List.length_append]
              exact firstOcc_concat hB hline
            obtain ⟨hsize, hempty⟩ := analysis_lastLine hg hline hend hrun
            rw [hB', hsize, hcontent, List.drop_length]
            exact ⟨rfl, hempty⟩
      intro command hmem
      rcases List.mem_append.mp hmem with hmem | hmem
      · exact key.2 command hmem
      · exact ih key.1 hfeed command hmem

/-- Empty frames, each in a chunk of its own, leave an empty buffer. -/
theorem feed_empties (hg : ∀ c, g c = .ok ()) (fs : List Frame) (hfs : ∀ f ∈ fs, f.body = [])
    (hB : B.content = []) :
    ∃ B' commands, B'.content = [] ∧ ∀ chunks, feed g B (fs.map Frame.encode ++ chunks)
      = (feed g B' chunks).map (fun q => (q.1, commands ++ q.2)) := by
  induction fs generalizing B with
  | nil =>
      refine ⟨B, [], hB, fun chunks => ?_⟩
      cases h : feed g B chunks with
      | error e => rw [List.map_nil, List.nil_append, h]; rfl
      | ok q => rw [List.map_nil, List.nil_append, h]; rfl
  | cons f fs ih =>
      have hcontent : (B.append f.encode).content = f.encode ++ [] := by
        show B.content ++ f.encode = _
        rw [hB, List.nil_append, List.append_nil]
      have hrun := analysis_frame_stop hg hcontent (by
        rw [hfs f (List.mem_cons_self ..)]
        exact Nat.zero_le _)
      obtain ⟨B₁, hB₁, hfeed⟩ := feed_cons hrun
      rw [hB, List.nil_append, List.drop_length] at hB₁
      obtain ⟨B', commands, hB', hrest⟩ :=
        ih (fun f' hf' => hfs f' (List.mem_cons_of_mem _ hf')) hB₁
      refine ⟨B', [f.body] ++ commands, hB', fun chunks => ?_⟩
      rw [List.map_cons, List.cons_append, hfeed, hrest]
      cases feed g B' chunks with
      | error e => rfl
      | ok q => simp [Except.map]

/-! ## Streams that may be cut anywhere -/

/-- Chunks without a byte do nothing to an empty buffer. -/
theorem feed_nothing (hB : B.content = []) (hchunks : chunks.flatten = []) :
    ∃ B', feed g B chunks = .ok (B', []) ∧ B'.content = [] := by
  induction chunks generalizing B with
  | nil => exact ⟨B, rfl, hB⟩
  | cons chunk chunks ih =>
      obtain ⟨hchunk, hrest⟩ := List.append_eq_nil_iff.mp hchunks
      have hcontent : (B.append chunk).content = [] := by
        show B.content ++ chunk = []
        rw [hB, hchunk, List.append_nil]
      have hrun := analysis_noLine (g := g) (B := B.append chunk) (by rw [hcontent]; rfl)
      obtain ⟨B₁, hB₁, hfeed⟩ := feed_cons hrun
      obtain ⟨B', hB', hnil⟩ := ih (B := B₁) (by rw [hB₁, hB, hchunk]; rfl) hrest
      exact ⟨B', by rw [hfeed, hB']; rfl, hnil⟩

/-- One empty frame, cut anywhere. -/
theorem feed_empty_frame (hg : ∀ c, g c = .ok ()) (hf : f.body = [])
    (hB : B.content.length < f.encode.length) (hchunks : B.content ++ chunks.flatten = f.encode) :
    ∃ B', feed g B chunks = .ok (B', [[]]) ∧ B'.content = [] := by
  induction chunks generalizing B with
  | nil =>
      rw [List.flatten_nil, List.append_nil] at hchunks
      rw [hchunks] at hB
      exact absurd hB (Nat.lt_irrefl _)
  | cons chunk chunks ih =>
      have hcontent : (B.append chunk).content = B.content ++ chunk := rfl
      rw [List.flatten_cons, ← List.append_assoc, ← hcontent] at hchunks
      by_cases hlen : (B.append chunk).content.length < f.encode.length
      · -- the header is not complete: its line would end the frame
        have hline : lineAt (B.append chunk).content 0 = none := by
          cases hocc : lineAt (B.append chunk).content 0 with
          | none => rfl
          | some ℓ =>
              have hle := lineAt_le hocc
              have hframe := lineAt_encode f []
              rw [lineAt, List.drop_zero] at hocc hframe
              rw [List.append_nil, ← hchunks, firstOcc_append_right hocc] at hframe
              have hsize : f.encode.length = (decimal f.body.length).length + 2 := by
                rw [Frame.encode, hf, List.append_nil, List.length_append]
                rfl
              have := Option.some.inj hframe
              omega
        obtain ⟨B₁, hB₁, hfeed⟩ := feed_cons (analysis_noLine (g := g) hline)
        rw [← hcontent, List.drop_zero] at hB₁
        rw [← hB₁] at hlen hchunks
        obtain ⟨B', hB', hnil⟩ := ih hlen hchunks
        exact ⟨B', by rw [hfeed, hB']; rfl, hnil⟩
      · -- the frame is complete: what follows are empty chunks
        have htotal := congrArg List.length hchunks
        rw [List.length_append] at htotal
        have hrest : chunks.flatten = [] := List.eq_nil_of_length_eq_zero (by omega)
        rw [hrest, List.append_nil] at hchunks
        have hrun := analysis_frame_stop hg (hchunks.trans (List.append_nil _).symm)
          (by rw [hf]; exact Nat.zero_le _)
        obtain ⟨B₁, hB₁, hfeed⟩ := feed_cons hrun
        rw [← hcontent, hchunks, List.drop_length] at hB₁
        obtain ⟨B', hB', hnil⟩ := feed_nothing (g := g) hB₁ hrest
        exact ⟨B', by rw [hfeed, hB', hf]; rfl, hnil⟩

theorem receive_eq {r : Bytes × List (List Byte)} (h : feed g .new chunks = .ok r) :
    receive g chunks = .ok (r.2, r.1.content) := by
  rw [receive, h]
  rfl

/-- Two empty frames in one chunk: the second one stays in the buffer. -/
theorem receive_last_two (hg : ∀ c, g c = .ok ()) {fs : List Frame} {f f' : Frame}
    (hfs : ∀ f ∈ fs, f.body = []) (hf : f.body = []) (hf' : f'.body = []) :
    ∃ commands, receive g (fs.map Frame.encode ++ [f.encode ++ f'.encode])
      = .ok (commands, f'.encode) := by
  obtain ⟨B, commands, hB, hfeed⟩ := feed_empties (B := .new) hg fs hfs rfl
  have hcontent : (B.append (f.encode ++ f'.encode)).content = f.encode ++ f'.encode := by
    show B.content ++ (f.encode ++ f'.encode) = _
    rw [hB, List.nil_append]
  have hlen : f'.encode.length = f.encode.length := by
    rw [Frame.encode, Frame.encode, hf, hf']
  have hrun := analysis_frame_stop hg hcontent (by
    rw [hf, List.length_nil, Nat.zero_add, hlen])
  obtain ⟨B', hB', hlast⟩ := feed_cons hrun
  rw [hB, List.nil_append, List.drop_left] at hB'
  have hall := hfeed [f.encode ++ f'.encode]
  rw [hlast] at hall
  have := receive_eq (hall.trans rfl)
  rw [hB'] at this
  exact ⟨_, this⟩

/-- Each empty frame in its own chunk: nothing stays. -/
theorem receive_each (hg : ∀ c, g c = .ok ()) {fs : List Frame}
    (hfs : ∀ f ∈ fs, f.body = []) :
    ∃ commands, receive g (fs.map Frame.encode) = .ok (commands, []) := by
  obtain ⟨B, commands, hB, hfeed⟩ := feed_empties (B := .new) hg fs hfs rfl
  have hall := hfeed []
  rw [List.append_nil] at hall
  have := receive_eq (hall.trans rfl)
  rw [hB] at this
  exact ⟨_, this⟩

/-- A frame that arrives whole, behind empty ones, hands on its body. -/
theorem receive_body (hg : ∀ c, g c = .ok ()) {fs : List Frame} {f : Frame} {rest : List Byte}
    (hfs : ∀ f ∈ fs, f.body = []) {r : List (List Byte) × List Byte}
    (h : receive g (fs.map Frame.encode ++ [f.encode ++ rest]) = .ok r) : f.body ∈ r.1 := by
  obtain ⟨B, commands, hB, hfeed⟩ := feed_empties (B := .new) hg fs hfs rfl
  rw [receive, hfeed] at h
  cases hq : feed g B [f.encode ++ rest] with
  | error e => rw [hq] at h; cases h
  | ok q =>
      rw [hq] at h
      cases h
      obtain ⟨a, B', q', hrun, _, _, rfl⟩ := feed_cons_inv hq
      have hcontent : (B.append (f.encode ++ rest)).content = f.encode ++ rest := by
        show B.content ++ (f.encode ++ rest) = _
        rw [hB, List.nil_append]
      exact List.mem_append_right _ (List.mem_append_left _ (hands_body hg hcontent hrun))

/-- The frames up to the first one that is not empty. -/
theorem exists_first_body {frames : List Frame} (h : ¬ ∀ f ∈ frames, f.body = []) :
    ∃ fs f fs', frames = fs ++ f :: fs' ∧ (∀ f ∈ fs, f.body = []) ∧ f.body ≠ [] := by
  induction frames with
  | nil => exact absurd (fun f hf => absurd hf List.not_mem_nil) h
  | cons f frames ih =>
      by_cases hf : f.body = []
      · have h' : ¬ ∀ f ∈ frames, f.body = [] := by
          intro hall
          refine h (fun f' hf' => ?_)
          rcases List.mem_cons.mp hf' with rfl | hmem
          · exact hf
          · exact hall f' hmem
        obtain ⟨fs, f', fs', rfl, hfs, hf'⟩ := ih h'
        refine ⟨f :: fs, f', fs', rfl, fun f'' hmem => ?_, hf'⟩
        rcases List.mem_cons.mp hmem with rfl | hmem
        · exact hf
        · exact hfs f'' hmem
      · exact ⟨[], f, frames, rfl, fun f hf => absurd hf List.not_mem_nil, hf⟩

theorem stream_append (fs fs' : List Frame) : stream (fs ++ fs') = stream fs ++ stream fs' := by
  rw [stream, List.map_append, List.flatten_append]
  rfl

/-- Chunking does not matter to no frame at all. -/
theorem chunkingIrrelevant_nil (g : Bytes → Except ε Unit) : ChunkingIrrelevant g [] := by
  have key : ∀ chunks : List (List Byte), chunks.flatten = [] →
      receive g chunks = .ok ([], []) := by
    intro chunks hchunks
    obtain ⟨B, hfeed, hB⟩ := feed_nothing (g := g) (B := .new) rfl hchunks
    rw [receive_eq hfeed, hB]
  exact fun chunks chunks' h h' => ⟨_, key chunks h, key chunks' h'⟩

/-- Chunking does not matter to one empty frame. -/
theorem chunkingIrrelevant_one (hg : ∀ c, g c = .ok ()) (hf : f.body = []) :
    ChunkingIrrelevant g [f] := by
  have key : ∀ chunks : List (List Byte), chunks.flatten = stream [f] →
      receive g chunks = .ok ([[]], []) := by
    intro chunks hchunks
    have hstream : stream [f] = f.encode := List.append_nil _
    have hpos : 0 < f.encode.length := by
      rw [Frame.encode, List.length_append, List.length_append]
      have : crlf.length = 2 := rfl
      omega
    obtain ⟨B, hfeed, hB⟩ := feed_empty_frame (B := .new) hg hf hpos (hchunks.trans hstream)
    rw [receive_eq hfeed, hB]
  exact fun chunks chunks' h h' => ⟨_, key chunks h, key chunks' h'⟩

/-- A body has to arrive in one piece with its header, or is lost. -/
theorem not_chunkingIrrelevant_body (hg : ∀ c, g c = .ok ()) {frames : List Frame}
    (h : ¬ ∀ f ∈ frames, f.body = []) : ¬ ChunkingIrrelevant g frames := by
  intro hchunking
  obtain ⟨fs, f, fs', rfl, hfs, hf⟩ := exists_first_body h
  obtain ⟨r, hbytes, hframes⟩ := hchunking
    ((stream (fs ++ f :: fs')).map (fun b => [b]))
    (fs.map Frame.encode ++ [f.encode ++ stream fs'])
    (by rw [← List.flatMap_def, List.flatMap_singleton'])
    (by rw [stream_append, List.flatten_append]; simp [stream])
  have hmem := receive_body hg hfs hframes
  rw [receive] at hbytes
  cases hq : feed g .new ((stream (fs ++ f :: fs')).map (fun b => [b])) with
  | error e => rw [hq] at hbytes; cases hbytes
  | ok q =>
      rw [hq] at hbytes
      cases hbytes
      exact hf (feed_bytes hg _ rfl hq _ hmem)

/-- Of two empty frames that arrive together the second one is left behind. -/
theorem not_chunkingIrrelevant_two (hg : ∀ c, g c = .ok ()) {fs : List Frame} {f f' : Frame}
    (hfs : ∀ f'' ∈ fs ++ [f, f'], f''.body = []) :
    ¬ ChunkingIrrelevant g (fs ++ [f, f']) := by
  intro hchunking
  obtain ⟨commands, heach⟩ := receive_each hg hfs
  obtain ⟨commands', htwo⟩ := receive_last_two hg
    (fun f'' hmem => hfs f'' (List.mem_append_left _ hmem)) (hfs f (by simp)) (hfs f' (by simp))
  obtain ⟨r, hr, hr'⟩ := hchunking _ _ rfl
    (show (fs.map Frame.encode ++ [f.encode ++ f'.encode]).flatten = stream (fs ++ [f, f']) by
      rw [stream_append, List.flatten_append]; simp [stream])
  rw [heach] at hr
  rw [htwo, ← hr] at hr'
  have hnil : f'.encode = [] := (Prod.mk.inj (Except.ok.inj hr')).2
  have := congrArg List.length hnil
  rw [Frame.encode, List.length_append, List.length_append, List.length_nil] at this
  have : crlf.length = 2 := rfl
  omega

/-- **Chunking.** When `getCommand` returns, chunking does not matter to a
stream of frames if and only if the stream is no frame, or one empty frame. -/
theorem chunkingIrrelevant_iff (g : Bytes → Except ε Unit) (hg : ∀ c, g c = .ok ())
    (frames : List Frame) :
    ChunkingIrrelevant g frames ↔ frames = [] ∨ ∃ f, frames = [f] ∧ f.body = [] := by
  constructor
  · intro h
    by_cases hempty : ∀ f ∈ frames, f.body = []
    · rcases List.eq_nil_or_concat' frames with rfl | ⟨init, f', rfl⟩
      · exact .inl rfl
      · rcases List.eq_nil_or_concat' init with rfl | ⟨fs, f, rfl⟩
        · exact .inr ⟨f', rfl, hempty f' (by simp)⟩
        · rw [List.append_assoc] at h hempty
          exact absurd h (not_chunkingIrrelevant_two hg hempty)
    · exact absurd h (not_chunkingIrrelevant_body hg hempty)
  · rintro (rfl | ⟨f, rfl, hf⟩)
    · exact chunkingIrrelevant_nil g
    · exact chunkingIrrelevant_one hg hf

/-- One empty frame, with a `getCommand` that always returns. -/
theorem chunkingIrrelevant_iff_empty_frame :
    ChunkingIrrelevant (fun _ => (.ok () : Except Fault Unit)) [⟨[], by decide⟩] ↔
      [(⟨[], by decide⟩ : Frame)] = [] ∨
        ∃ f : Frame, [(⟨[], by decide⟩ : Frame)] = [f] ∧ f.body = [] :=
  chunkingIrrelevant_iff _ (fun _ => rfl) _

/-- `"3\r\nGet"` in one chunk, and cut behind its header. -/
theorem cut_behind_header_loses_body :
    ¬ ChunkingIrrelevant (fun _ => (.ok () : Except Fault Unit))
      [⟨[71, 101, 116], by decide⟩] := by
  intro h
  have hwhole : receive (fun _ => (.ok () : Except Fault Unit)) [[51, 13, 10, 71, 101, 116]]
      = .ok ([[71, 101, 116]], []) := by
    decide +kernel
  have hcut : receive (fun _ => (.ok () : Except Fault Unit)) [[51, 13, 10], [71, 101, 116]]
      = .ok ([], [71, 101, 116]) := by
    decide +kernel
  obtain ⟨r, hr, hr'⟩ := h _ _
    (show [[51, 13, 10, 71, 101, 116]].flatten = _ by decide +kernel)
    (show [[51, 13, 10], [71, 101, 116]].flatten = _ by decide +kernel)
  rw [hwhole] at hr
  rw [hcut, ← hr] at hr'
  cases hr'

end LearnSpace.KvStore
