import SchemaHeader.Wire.Grammar

/-! The messages that requests, responses and descriptor sets are made of, with every field, also
those that nothing is read from: their values have to be well formed all the same. -/
namespace SchemaHeader

open Wire (Kind Rule Grammar)

inductive Shape where
  | request | version | response | responseFile | fileSet | file | message | field | fieldOptions
  | option | optionName | enum | enumValue | enumValueOptions | enumOptions | enumRange
  | extensionRange | extensionOptions | messageOptions | oneof | oneofOptions | range | service
  | method | methodOptions | serviceOptions | fileOptions | sourceInfo | location
  deriving DecidableEq

namespace Shape

/-- The title that faults show for a message of this shape. -/
def title : Shape → String
  | .request => "CodeGeneratorRequest"
  | .version => "Version"
  | .response => "CodeGeneratorResponse"
  | .responseFile => "File"
  | .fileSet => "FileDescriptorSet"
  | .file => "FileDescriptorProto"
  | .message => "DescriptorProto"
  | .field => "FieldDescriptorProto"
  | .fieldOptions => "FieldOptions"
  | .option => "UninterpretedOption"
  | .optionName => "NamePart"
  | .enum => "EnumDescriptorProto"
  | .enumValue => "EnumValueDescriptorProto"
  | .enumValueOptions => "EnumValueOptions"
  | .enumOptions => "EnumOptions"
  | .enumRange => "EnumReservedRange"
  | .extensionRange => "ExtensionRange"
  | .extensionOptions => "ExtensionRangeOptions"
  | .messageOptions => "MessageOptions"
  | .oneof => "OneofDescriptorProto"
  | .oneofOptions => "OneofOptions"
  | .range => "ReservedRange"
  | .service => "ServiceDescriptorProto"
  | .method => "MethodDescriptorProto"
  | .methodOptions => "MethodOptions"
  | .serviceOptions => "ServiceOptions"
  | .fileOptions => "FileOptions"
  | .sourceInfo => "SourceCodeInfo"
  | .location => "Location"

/-- The fields by number. -/
def fields : Shape → List (Nat × Rule Shape)
  | .request => [
    (1, ⟨"file_to_generate", .text⟩), (2, ⟨"parameter", .text⟩),
    (3, ⟨"compiler_version", .message .version⟩), (15, ⟨"proto_file", .message .file⟩)]
  | .version => [
    (1, ⟨"major", .int32⟩), (2, ⟨"minor", .int32⟩), (3, ⟨"patch", .int32⟩),
    (4, ⟨"suffix", .text⟩)]
  | .response => [
    (1, ⟨"error", .text⟩), (2, ⟨"supported_features", .word⟩),
    (15, ⟨"file", .message .responseFile⟩)]
  | .responseFile => [
    (1, ⟨"name", .text⟩), (2, ⟨"insertion_point", .text⟩), (15, ⟨"content", .text⟩)]
  | .fileSet => [(1, ⟨"file", .message .file⟩)]
  | .file => [
    (1, ⟨"name", .text⟩), (2, ⟨"package", .text⟩), (3, ⟨"dependency", .text⟩),
    (4, ⟨"message_type", .message .message⟩), (5, ⟨"enum_type", .message .enum⟩),
    (6, ⟨"service", .message .service⟩), (7, ⟨"extension", .message .field⟩),
    (8, ⟨"options", .message .fileOptions⟩), (9, ⟨"source_code_info", .message .sourceInfo⟩),
    (10, ⟨"public_dependency", .int32s⟩), (11, ⟨"weak_dependency", .int32s⟩),
    (12, ⟨"syntax", .text⟩)]
  | .message => [
    (1, ⟨"name", .text⟩), (2, ⟨"field", .message .field⟩),
    (3, ⟨"nested_type", .message .message⟩), (4, ⟨"enum_type", .message .enum⟩),
    (5, ⟨"extension_range", .message .extensionRange⟩), (6, ⟨"extension", .message .field⟩),
    (7, ⟨"options", .message .messageOptions⟩), (8, ⟨"oneof_decl", .message .oneof⟩),
    (9, ⟨"reserved_range", .message .range⟩), (10, ⟨"reserved_name", .text⟩)]
  | .field => [
    (1, ⟨"name", .text⟩), (2, ⟨"extendee", .text⟩), (3, ⟨"number", .int32⟩),
    (4, ⟨"label", .int32⟩), (5, ⟨"r#type", .int32⟩), (6, ⟨"type_name", .text⟩),
    (7, ⟨"default_value", .text⟩), (8, ⟨"options", .message .fieldOptions⟩),
    (9, ⟨"oneof_index", .int32⟩), (10, ⟨"json_name", .text⟩), (17, ⟨"proto3_optional", .bool⟩)]
  | .fieldOptions => [
    (1, ⟨"ctype", .int32⟩), (2, ⟨"packed", .bool⟩), (3, ⟨"deprecated", .bool⟩),
    (5, ⟨"lazy", .bool⟩), (6, ⟨"jstype", .int32⟩), (10, ⟨"weak", .bool⟩),
    (999, ⟨"uninterpreted_option", .message .option⟩)]
  | .option => [
    (2, ⟨"name", .message .optionName⟩), (3, ⟨"identifier_value", .text⟩),
    (4, ⟨"positive_int_value", .word⟩), (5, ⟨"negative_int_value", .word⟩),
    (6, ⟨"double_value", .double⟩), (7, ⟨"string_value", .bytes⟩),
    (8, ⟨"aggregate_value", .text⟩)]
  | .optionName => [(1, ⟨"name_part", .text⟩), (2, ⟨"is_extension", .bool⟩)]
  | .enum => [
    (1, ⟨"name", .text⟩), (2, ⟨"value", .message .enumValue⟩),
    (3, ⟨"options", .message .enumOptions⟩), (4, ⟨"reserved_range", .message .enumRange⟩),
    (5, ⟨"reserved_name", .text⟩)]
  | .enumValue => [
    (1, ⟨"name", .text⟩), (2, ⟨"number", .int32⟩), (3, ⟨"options", .message .enumValueOptions⟩)]
  | .enumValueOptions => [
    (1, ⟨"deprecated", .bool⟩), (999, ⟨"uninterpreted_option", .message .option⟩)]
  | .enumOptions => [
    (2, ⟨"allow_alias", .bool⟩), (3, ⟨"deprecated", .bool⟩),
    (999, ⟨"uninterpreted_option", .message .option⟩)]
  | .enumRange => [(1, ⟨"start", .int32⟩), (2, ⟨"end", .int32⟩)]
  | .extensionRange => [
    (1, ⟨"start", .int32⟩), (2, ⟨"end", .int32⟩), (3, ⟨"options", .message .extensionOptions⟩)]
  | .extensionOptions => [(999, ⟨"uninterpreted_option", .message .option⟩)]
  | .messageOptions => [
    (1, ⟨"message_set_wire_format", .bool⟩), (2, ⟨"no_standard_descriptor_accessor", .bool⟩),
    (3, ⟨"deprecated", .bool⟩), (7, ⟨"map_entry", .bool⟩),
    (999, ⟨"uninterpreted_option", .message .option⟩)]
  | .oneof => [(1, ⟨"name", .text⟩), (2, ⟨"options", .message .oneofOptions⟩)]
  | .oneofOptions => [(999, ⟨"uninterpreted_option", .message .option⟩)]
  | .range => [(1, ⟨"start", .int32⟩), (2, ⟨"end", .int32⟩)]
  | .service => [
    (1, ⟨"name", .text⟩), (2, ⟨"method", .message .method⟩),
    (3, ⟨"options", .message .serviceOptions⟩)]
  | .method => [
    (1, ⟨"name", .text⟩), (2, ⟨"input_type", .text⟩), (3, ⟨"output_type", .text⟩),
    (4, ⟨"options", .message .methodOptions⟩), (5, ⟨"client_streaming", .bool⟩),
    (6, ⟨"server_streaming", .bool⟩)]
  | .methodOptions => [
    (33, ⟨"deprecated", .bool⟩), (34, ⟨"idempotency_level", .int32⟩),
    (999, ⟨"uninterpreted_option", .message .option⟩)]
  | .serviceOptions => [
    (33, ⟨"deprecated", .bool⟩), (999, ⟨"uninterpreted_option", .message .option⟩)]
  | .fileOptions => [
    (1, ⟨"java_package", .text⟩), (8, ⟨"java_outer_classname", .text⟩),
    (9, ⟨"optimize_for", .int32⟩), (10, ⟨"java_multiple_files", .bool⟩),
    (11, ⟨"go_package", .text⟩), (16, ⟨"cc_generic_services", .bool⟩),
    (17, ⟨"java_generic_services", .bool⟩), (18, ⟨"py_generic_services", .bool⟩),
    (20, ⟨"java_generate_equals_and_hash", .bool⟩), (23, ⟨"deprecated", .bool⟩),
    (27, ⟨"java_string_check_utf8", .bool⟩), (31, ⟨"cc_enable_arenas", .bool⟩),
    (36, ⟨"objc_class_prefix", .text⟩), (37, ⟨"csharp_namespace", .text⟩),
    (39, ⟨"swift_prefix", .text⟩), (40, ⟨"php_class_prefix", .text⟩),
    (41, ⟨"php_namespace", .text⟩), (42, ⟨"php_generic_services", .bool⟩),
    (44, ⟨"php_metadata_namespace", .text⟩), (45, ⟨"ruby_package", .text⟩),
    (999, ⟨"uninterpreted_option", .message .option⟩)]
  | .sourceInfo => [(1, ⟨"location", .message .location⟩)]
  | .location => [
    (1, ⟨"path", .int32s⟩), (2, ⟨"span", .int32s⟩), (3, ⟨"leading_comments", .text⟩),
    (4, ⟨"trailing_comments", .text⟩), (6, ⟨"leading_detached_comments", .text⟩)]

end Shape

/-- The grammar of all these messages. -/
def schemaGrammar : Grammar Shape where
  title := Shape.title
  rule? shape field := shape.fields.lookup field

end SchemaHeader
