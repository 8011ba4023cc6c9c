import SchemaHeader.CommandLine.Run
import SchemaHeader.Proofs.Batch
import SchemaHeader.Proofs.Response

/-! What a call without a descriptor set does: it answers the request on its input in full, or fails
without output. A length is one word, and no real output is longer than that. -/
namespace SchemaHeader

namespace Dialect

variable {style : Dialect} {request : Request} {input output : List UInt8} {headers : List Header}

theorem exists_headers_eq_ok_iff (style : Dialect) :
    (∃ headers, style.headers request = .ok headers) ↔
      ∀ f ∈ request.files, f.name ∈ request.wanted →
        ∀ m ∈ f.everyMessage, ∀ x ∈ m.fields, ¬ x.IsIllTyped := by
  simp only [headers_eq_ok_iff, exists_and_left, exists_eq, and_true, List.mem_filter,
    decide_eq_true_eq, and_imp]

theorem response_of_headers (h : style.headers request = .ok headers) :
    style.response request = .ok (.ofHeaders request.parameter headers) := by
  rw [response, h]
  rfl

theorem answer_eq_ok_iff : style.answer input = .ok output ↔
    ∃ request headers, Request.decode input = .ok request ∧ style.headers request = .ok headers ∧
      output = (Response.ofHeaders request.parameter headers).encode := by
  simp only [answer, bind_eq_ok_iff, mapError_eq_ok_iff, pure, Except.pure, Except.ok.injEq,
    eq_comm (b := output), exists_and_left]

end Dialect

namespace CommandLine

variable {arguments : List String} {options : Options} {input output : List UInt8} {disk : Disk}

/-- Without a descriptor set the program answers the request and leaves the disk alone. -/
theorem run_eq_answer (hparse : parse arguments = .ok (.run options))
    (hset : options.descriptorSet? = none) (input : List UInt8) (disk : Disk) :
    run arguments input disk = (answer {} input, disk) := by
  rw [run, program, hparse]
  dsimp only
  rw [hset]
  rfl

/-- A run either prints a whole answer or fails without output. -/
theorem answer_cases (style : Dialect) (input : List UInt8) :
    (∃ output, style.answer input = .ok output ∧
      answer style input = { exit := .success, output := output }) ∨
    (∀ output, style.answer input ≠ .ok output) ∧
      (answer style input).exit = .failure ∧ (answer style input).output = [] := by
  rw [answer]
  cases style.answer input with
  | ok output => exact Or.inl ⟨output, rfl, rfl⟩
  | error failure =>
    refine Or.inr ⟨fun output h => ?_, rfl, rfl⟩
    cases h

/-- Success means that the request can be read and is well typed. -/
theorem answer_exit_eq_success_iff {style : Dialect} :
    (answer style input).exit = .success ↔ ∃ request, Request.decode input = .ok request ∧
      ∀ f ∈ request.files, f.name ∈ request.wanted →
        ∀ m ∈ f.everyMessage, ∀ x ∈ m.fields, ¬ x.IsIllTyped := by
  simp only [← Dialect.exists_headers_eq_ok_iff style]
  obtain ⟨output, houtput, hreport⟩ | ⟨hnone, hfailure, -⟩ := answer_cases style input
  · obtain ⟨request, headers, hdecode, hheaders, -⟩ := Dialect.answer_eq_ok_iff.mp houtput
    rw [hreport]
    exact ⟨fun _ => ⟨request, hdecode, headers, hheaders⟩, fun _ => rfl⟩
  · rw [hfailure]
    constructor
    · intro h
      cases h
    · rintro ⟨request, hdecode, headers, hheaders⟩
      exact (hnone _ (Dialect.answer_eq_ok_iff.mpr ⟨request, headers, hdecode, hheaders, rfl⟩)).elim

/-- A run prints the response to a request that can be read and is well typed, and the headers can
be read off it again; on any other input it fails without output. -/
theorem run_answers_request (input : List UInt8) (disk : Disk)
    (hparse : parse arguments = .ok (.run options)) (hset : options.descriptorSet? = none) :
    let report := (run arguments input disk).1
    (run arguments input disk).2 = disk ∧
    (report.exit = .success ↔ ∃ request, Request.decode input = .ok request ∧
      ∀ f ∈ request.files, f.name ∈ request.wanted →
        ∀ m ∈ f.everyMessage, ∀ x ∈ m.fields, ¬ x.IsIllTyped) ∧
    (report.exit = .success → ∃ request headers response, Request.decode input = .ok request ∧
      Dialect.headers {} request = .ok headers ∧ Dialect.response {} request = .ok response ∧
      report.output = response.encode ∧
      (report.output.length < UInt64.size → Response.decode report.output = .ok response) ∧
      response.files = headers.map fun h =>
        { name? := some h.name, insertionPoint? := none, content? := some h.content }) ∧
    (report.exit ≠ .success → report.exit = .failure ∧ report.output = []) := by
  rw [run_eq_answer hparse hset]
  refine ⟨rfl, answer_exit_eq_success_iff, ?_⟩
  obtain ⟨output, houtput, hreport⟩ | ⟨-, hfailure, hempty⟩ := answer_cases {} input
  · obtain ⟨request, headers, hdecode, hheaders, rfl⟩ := Dialect.answer_eq_ok_iff.mp houtput
    rw [hreport]
    refine ⟨fun _ => ⟨request, headers, _, hdecode, hheaders, Dialect.response_of_headers hheaders,
      rfl, Response.decode_encode, rfl⟩, fun hexit => (hexit rfl).elim⟩
  · rw [hfailure]
    refine ⟨fun hexit => ?_, fun _ => ⟨rfl, hempty⟩⟩
    cases hexit

/-- One file is asked for; the other has an ill-typed field. -/
def halfAsked : Request where
  wanted := ["a"]
  files := [{ name? := "b", messages := [{ fields := [{ type? := some 19 }] }] },
    { name? := "a", messages := [{ name? := "M", fields := [{ name? := "x", type? := some 5 }] }] }]

theorem run_answers_half_asked :
    let report := (run ["-v"] halfAsked.encode {}).1
    parse ["-v"] = .ok (.run { verbosity := 1 }) ∧ report.exit = .success ∧
      ∃ response, Response.decode report.output = .ok response ∧
        response.files.map (·.name?) = [some "a.h"] := by
  intro report
  have hparse : parse ["-v"] = .ok (.run { verbosity := 1 }) := by decide +kernel
  have hok : report.exit = .success := by decide +kernel
  have hshort : report.output.length < UInt64.size := by decide +kernel
  have hnames : ((Request.decode halfAsked.encode).toOption.bind fun request =>
      (Dialect.headers {} request).toOption.map fun headers => headers.map (·.name)) =
        some ["a.h"] := by decide +kernel
  obtain ⟨-, -, hanswer, -⟩ := run_answers_request halfAsked.encode {} hparse rfl
  obtain ⟨request, headers, response, hdecode, hheaders, -, -, hread, hfiles⟩ := hanswer hok
  have hheader : headers.map (·.name) = ["a.h"] := by
    simpa [hdecode, hheaders, Except.toOption] using hnames
  refine ⟨hparse, hok, response, hread hshort, ?_⟩
  rw [hfiles, List.map_map]
  calc headers.map (fun h => some h.name)
    _ = (headers.map (·.name)).map some := by rw [List.map_map]; rfl
    _ = [some "a.h"] := by rw [hheader]; rfl

end CommandLine

end SchemaHeader
