import IdlBridge.Text.Basic

/-! # Help texts

    What is shown for the program and for each of its commands.
-/

namespace IdlBridge.Command.Help

/-- A text of lines. -/
def ofLines (lines : List String) : Text :=
  lines.flatMap fun l => Text.ofString l ++ "\n"

/-- The help of the program. -/
def program : Text := ofLines [
  "usage: swagger-idl [-h] [--verbose] \x7bopenapi2proto,idl2openapi\x7d ...",
  "",
  "Convert between OpenAPI documents and Protobuf/Thrift IDL",
  "",
  "positional arguments:",
  "  \x7bopenapi2proto,idl2openapi\x7d",
  "    openapi2proto       Convert an OpenAPI 3 document to a proto3 file",
  "    idl2openapi         Generate an OpenAPI 3.0.3 YAML document from a .thrift",
  "                        or .proto file",
  "",
  "options:",
  "  -h, --help            show this help message and exit",
  "  --verbose, -v         Enable debug logging"]

/-- The help of the conversion to an interface definition. -/
def toProto : Text := ofLines [
  "usage: swagger-idl openapi2proto [-h] [-o OUTPUT] [--package PACKAGE]",
  "                                 [--openapi-option] [--no-api-option]",
  "                                 spec",
  "",
  "positional arguments:",
  "  spec                  Path to the OpenAPI document (YAML or JSON)",
  "",
  "options:",
  "  -h, --help            show this help message and exit",
  "  -o OUTPUT, --output OUTPUT",
  "                        Output .proto path",
  "  --package PACKAGE     Proto package name (defaults to info.title)",
  "  --openapi-option      Attach openapi.operation options and import",
  "                        openapi.proto",
  "  --no-api-option       Do not attach api.<method> options nor import",
  "                        api.proto"]

/-- The help of the conversion to a document. -/
def toOpenApi : Text := ofLines [
  "usage: swagger-idl idl2openapi [-h] [-o OUTPUT] [--mode \x7bhttp,rpc\x7d]",
  "                               [--title TITLE] [--description DESCRIPTION]",
  "                               [--version DOC_VERSION] [--server SERVER]",
  "                               [-I INCLUDE]",
  "                               idl",
  "",
  "positional arguments:",
  "  idl                   Path to the .thrift or .proto file",
  "",
  "options:",
  "  -h, --help            show this help message and exit",
  "  -o OUTPUT, --output OUTPUT",
  "                        Output YAML path",
  "  --mode \x7bhttp,rpc\x7d     Operation layout",
  "  --title TITLE         Document title",
  "  --description DESCRIPTION",
  "                        Document description",
  "  --version DOC_VERSION",
  "                        Document version",
  "  --server SERVER       Server URL used when the IDL declares none",
  "  -I INCLUDE, --include INCLUDE",
  "                        Additional directory searched for includes/imports",
  "                        (repeatable)"]

end IdlBridge.Command.Help
