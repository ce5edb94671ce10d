import IdlBridge.Descriptor

/-! # Places of fields

    Where the annotations of a field put it: outside the body as a parameter or as a header of the
    response, or into one of the bodies. A field without such an annotation takes no part in an
    operation.
-/

namespace IdlBridge.Generation

/-- Puts a field into the query. -/
def queryKey : Text := "api.query"

/-- Puts a field into the path. -/
def pathKey : Text := "api.path"

/-- Puts a field into the cookies. -/
def cookieKey : Text := "api.cookie"

/-- Puts a field into the headers. -/
def headerKey : Text := "api.header"

/-- Puts a field into the structured body. -/
def bodyKey : Text := "api.body"

/-- Puts a field into the form. -/
def formKey : Text := "api.form"

/-- Puts a field into the plain body. -/
def rawBodyKey : Text := "api.raw_body"

/-- Gives the server of a method. -/
def baseUrlKey : Text := "api.baseurl"

/-- Gives the server of the methods of a service. -/
def baseDomainKey : Text := "api.base_domain"

/-- The text that an annotation gives, if it is not empty. -/
def nonEmpty? (as : Annotations) (key : Text) : Option Text :=
  (as.first? key).filter (· ≠ [])

/-- The locations of parameters with the keys that lead to them. Where a field has more than one of
    the keys, the last one counts. -/
def locations : Table Text :=
  [(queryKey, "query"), (pathKey, "path"), (cookieKey, "cookie"), (headerKey, "header")]

/-- The location of parameters that are always required. -/
def pathLocation : Text := "path"

/-- The name and the location of the parameter that a field is, if it is one. -/
def parameterPlace? (f : FieldDesc) : Option (Text × Text) :=
  locations.foldl (fun place e =>
    match nonEmpty? f.annotations e.1 with
    | some name => some (name, e.2)
    | none => place) none

end IdlBridge.Generation
