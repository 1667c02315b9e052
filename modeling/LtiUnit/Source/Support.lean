/-!
# LtiUnit.Source.Support

Logging and argument checks that every unit brings along for the runtime skeleton, which calls
into them. They do not depend on the model.
-/

namespace LtiUnit
namespace Source

def support : List String := [
  "#define FILTERED_LOG(instance, status, categoryIndex, message, ...) \\",
  "    if (status == fmi2Error || status == fmi2Fatal \\",
  "        || isCategoryLogged(instance, categoryIndex)) \\",
  "        instance->functions->logger(instance->functions->componentEnvironment, \\",
  "            instance->instanceName, status, logCategoriesNames[categoryIndex], message, \\",
  "            ##__VA_ARGS__);",
  "",
  "#ifndef max",
  "#define max(a, b) ((a) > (b) ? (a) : (b))",
  "#endif",
  "",
  "static fmi2Boolean isCategoryLogged(ModelInstance *comp, int categoryIndex) \x7b",
  "    if (categoryIndex < NUMBER_OF_CATEGORIES",
  "        && (comp->logCategories[categoryIndex] || comp->logCategories[LOG_ALL])) \x7b",
  "        return fmi2True;",
  "    \x7d",
  "    return fmi2False;",
  "\x7d",
  "",
  "static fmi2Boolean isInvalidState(ModelInstance *comp, const char *f, int statesExpected) \x7b",
  "    if (!comp)",
  "        return fmi2True;",
  "    if (!(comp->state & statesExpected)) \x7b",
  "        comp->state = modelError;",
  "        FILTERED_LOG(comp, fmi2Error, LOG_ERROR, \"%s: Illegal call sequence.\", f)",
  "        return fmi2True;",
  "    \x7d",
  "    return fmi2False;",
  "\x7d",
  "",
  "static fmi2Boolean isNullPtr(ModelInstance *comp, const char *f, const char *arg,",
  "    const void *p) \x7b",
  "    if (!p) \x7b",
  "        comp->state = modelError;",
  "        FILTERED_LOG(comp, fmi2Error, LOG_ERROR, \"%s: Invalid argument %s = NULL.\", f, arg)",
  "        return fmi2True;",
  "    \x7d",
  "    return fmi2False;",
  "\x7d",
  "",
  "static fmi2Boolean isVROutOfRange(ModelInstance *comp, const char *f, fmi2ValueReference vr,",
  "    int end) \x7b",
  "    if (vr >= (fmi2ValueReference)end) \x7b",
  "        comp->state = modelError;",
  "        FILTERED_LOG(comp, fmi2Error, LOG_ERROR, \"%s: Illegal value reference %u.\", f, vr)",
  "        return fmi2True;",
  "    \x7d",
  "    return fmi2False;",
  "\x7d",
  "",
  "static fmi2Boolean isInvalidNumber(ModelInstance *comp, const char *f, const char *arg, int n,",
  "    int nExpected) \x7b",
  "    if (n != nExpected) \x7b",
  "        comp->state = modelError;",
  "        FILTERED_LOG(comp, fmi2Error, LOG_ERROR, \"%s: Invalid argument %s = %d. Expected %d.\", f, arg,",
  "            n, nExpected)",
  "        return fmi2True;",
  "    \x7d",
  "    return fmi2False;",
  "\x7d",
  "",
  "static fmi2Status unsupportedFunction(fmi2Component c, const char *fName, int statesExpected) \x7b",
  "    ModelInstance *comp = (ModelInstance *)c;",
  "    if (isInvalidState(comp, fName, statesExpected))",
  "        return fmi2Error;",
  "    FILTERED_LOG(comp, fmi2OK, LOG_FMI_CALL, \"%s\", fName)",
  "    FILTERED_LOG(comp, fmi2Error, LOG_ERROR, \"%s: Function not implemented.\", fName)",
  "    return fmi2Error;",
  "\x7d"]

end Source
end LtiUnit
